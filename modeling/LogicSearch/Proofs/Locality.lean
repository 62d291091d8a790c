import LogicSearch.Proofs.ChainEnds
import LogicSearch.Proofs.Minting
import LogicSearch.Proofs.Traversal

/-! # Unification is local

    Bindings of variables that have nothing to do with a unification neither
    change what comes of it nor are changed by it, and if they are cyclic
    that does no harm.

    The variables that have to do with it are kept apart by a property
    (`Clear`): the values of such variables have no others in them, and none
    of them is bound by the further bindings.  Then every operation on terms
    over such variables commutes with adding the further bindings
    (`Clear.walk`, `Clear.resolve`, `Clear.occurs`, `Clear.unify`), and the
    bindings that it makes keep the substitution clear (`Clear.unifyAt`).
    The number of bindings, by which walks and traversals limit themselves,
    is another one then; what they find does not depend on it.

    For the property one may take that the variable can be reached
    (`Acyclic.unify_local`). -/

namespace LogicSearch

open Substitution

/-- All variables of the term have the property. -/
def Term.Among (near : Var → Prop) (t : Term) : Prop := ∀ x ∈ t.vars, near x

/-! ## Two substitutions in one -/

namespace Substitution

/-- The bindings of both; of a variable that both bind, that of the first. -/
def join (s e : Substitution) : Substitution := ⟨e.entries ∪ s.entries⟩

/-- No variable that `e` binds is bound in `s`. -/
def Apart (s e : Substitution) : Prop :=
  ∀ b ∈ e.bindings, s.get? b.key = none

end Substitution

/-- The outcome with some more bindings, if it has any. -/
def Outcome.join : Outcome → Substitution → Outcome
  | .unified s, e => .unified (s.join e)
  | .clash, _ => .clash
  | .broken err, _ => .broken err
  | .unanswered, _ => .unanswered

theorem Outcome.join_eq_unanswered {o : Outcome} {e : Substitution}
    (h : o.join e = .unanswered) : o = .unanswered := by
  cases o with
  | unanswered => rfl
  | unified s => cases h
  | clash => cases h
  | broken err => cases h

namespace Substitution

variable {s e : Substitution} {near : Var → Prop}

theorem value?_join (s e : Substitution) (i : Nat) :
    (s.join e).value? i = (s.value? i).or (e.value? i) := by
  rw [value?, join, Std.ExtTreeMap.getElem?_union, Option.map_or]
  rfl

/-- What is not bound by the second substitution is looked up in the
    first. -/
theorem get?_join {x : Var} (hx : e.get? x = none) :
    (s.join e).get? x = s.get? x := by
  rw [get?] at hx
  rw [get?, value?_join, hx, Option.or_none]
  rfl

/-- The bindings are those of both. -/
theorem mem_bindings_join (h : s.Apart e) {b : Binding} :
    b ∈ (s.join e).bindings ↔ b ∈ s.bindings ∨ b ∈ e.bindings := by
  rw [mem_bindings, mem_bindings, mem_bindings, join,
    Std.ExtTreeMap.getElem?_union, Option.or_eq_some_iff]
  constructor
  · rintro (hs | ⟨-, he⟩)
    · exact .inl hs
    · exact .inr he
  · rintro (hs | he)
    · exact .inl hs
    · have hnone := h b (mem_bindings.mpr he)
      exact .inr ⟨Option.map_eq_none_iff.mp hnone, he⟩

/-! ## Substitutions that keep clear of the further bindings -/

/-- From a variable that is `near` only such variables come up, chains have
    ends, and the further bindings bind other variables. -/
structure Clear (s e : Substitution) (near : Var → Prop) : Prop where
  chainsEnd : s.ChainsEnd
  closed : s.ValueClosed (Term.Among near)
  far {x : Var} : near x → e.get? x = none

theorem among_var {x : Var} : (Term.var x).Among near ↔ near x := by
  constructor
  · intro h
    exact h x (List.mem_singleton_self x)
  · intro hx y hy
    rw [List.mem_singleton.mp hy]
    exact hx

theorem itemClosed_among (near : Var → Prop) : ItemClosed (Term.Among near) :=
  itemClosed_vars near

/-- What a unification binds is near, so the substitution stays clear. -/
theorem Clear.grows {config : Config} {s' : Substitution}
    (h : s.Clear e near) (hgrows : Grows config (Term.Among near) s s') :
    s'.Clear e near :=
  ⟨hgrows.chainsEnd h.chainsEnd, hgrows.valueClosed h.closed, h.far⟩

/-! ## Chains -/

theorem Clear.get? (h : s.Clear e near) {x : Var} (hx : near x) :
    (s.join e).get? x = s.get? x :=
  get?_join (h.far hx)

theorem Clear.isEnd (h : s.Clear e near) {t : Term} (ht : t.Among near)
    (hend : s.IsEnd t) : (s.join e).IsEnd t := by
  rintro x rfl
  rw [h.get? (among_var.mp ht)]
  exact hend x rfl

/-- Chains are the same. -/
theorem Clear.chase (h : s.Clear e near) {n : Nat} {t u : Term}
    (ht : t.Among near) (hchase : s.chase n t = some u) :
    (s.join e).chase n t = some u := by
  have hkeeps : t.Among near → (s.join e).chase n t = some u := by
    refine chase_back_induct (motive := fun n t => t.Among near →
      (s.join e).chase n t = some u) ?_ ?_ hchase
    · intro n hend hu
      exact chase_of_isEnd (h.isEnd hu hend) n
    · intro n x v hx ih hnear
      have hx' : (s.join e).get? x = some v := by
        rw [h.get? (among_var.mp hnear), hx]
      rw [chase_succ hx']
      exact ih (h.closed x v hx hnear)
  exact hkeeps ht

/-- **WALKS ARE THE SAME**, whatever the number of bindings. -/
theorem Clear.walk (h : s.Clear e near) {t : Term} (ht : t.Among near) :
    (s.join e).walk t = s.walk t := by
  obtain ⟨u, hu⟩ := h.chainsEnd t
  obtain ⟨n, hn⟩ := walk_eq_ok_iff.mp hu
  rw [hu]
  exact walk_eq_ok_iff.mpr ⟨n, h.chase ht hn⟩

/-! ## Traversals -/

section Traversals

variable {β : Type} {v : Visitor β}

/-- What a traversal makes of a variable it makes of it with the further
    bindings, too. -/
theorem Clear.visits (h : s.Clear e near) {path : List Var} {y : Var}
    {r : Except Error β} (hr : s.Visits v path y r) (hy : near y) :
    (s.join e).Visits v path y r := by
  induction hr with
  | broken hwalk =>
      rw [← h.walk (among_var.mpr hy)] at hwalk
      exact .broken hwalk
  | leaf hwalk hu =>
      rw [← h.walk (among_var.mpr hy)] at hwalk
      exact .leaf hwalk hu
  | again hwalk hagain =>
      rw [← h.walk (among_var.mpr hy)] at hwalk
      exact .again hwalk hagain
  | inside hwalk hnew _ ih =>
      have hvalue := h.closed.walk (among_var.mpr hy) hwalk
      rw [← h.walk (among_var.mpr hy)] at hwalk
      exact .inside hwalk hnew fun w hw => ih w hw (hvalue w hw)

theorem Clear.traverses (h : s.Clear e near) {t : Term} (ht : t.Among near)
    {r : Except Error β} (hr : s.Traverses v t r) :
    (s.join e).Traverses v t r := by
  obtain ⟨f, hf, rfl⟩ := hr
  exact ⟨f, fun x hx => h.visits (hf x hx) (ht x hx), rfl⟩

end Traversals

/-- **FULL VALUES ARE THE SAME.** -/
theorem Clear.resolve (h : s.Clear e near) {t : Term} (ht : t.Among near) :
    (s.join e).resolve t = s.resolve t := by
  have hs := ((budgeted_resolveVar s).traverses t _).mpr rfl
  exact ((budgeted_resolveVar (s.join e)).traverses t _).mp
    (h.traverses ht hs)

/-- **THE SAME VARIABLES OCCUR.** -/
theorem Clear.occurs (h : s.Clear e near) (x : Var) {t : Term}
    (ht : t.Among near) : (s.join e).occurs x t = s.occurs x t := by
  have hs := ((budgeted_occursVar s x).traverses t _).mpr rfl
  exact ((budgeted_occursVar (s.join e) x).traverses t _).mp
    (h.traverses ht hs)

/-! ## Bindings -/

theorem Clear.assign (h : s.Clear e near) {x : Var} (hx : near x)
    (t : Term) : (s.join e).assign x t = (s.assign x t).join e := by
  rw [Substitution.assign, Substitution.assign, extend, extend, h.get? hx]
  cases s.get? x with
  | some u => rfl
  | none =>
      -- a new entry goes to the first of the two
      have hinsert : e.entries ∪ s.entries.insert x.id ⟨x.label, t⟩
          = (e.entries ∪ s.entries).insert x.id ⟨x.label, t⟩ :=
        Std.ExtTreeMap.union_insert_right_eq_insert_union
          (p := (⟨x.id, ⟨x.label, t⟩⟩ : (_ : Nat) × Entry))
      exact congrArg (fun m => Outcome.unified ⟨m⟩) hinsert.symm

theorem Clear.bind (h : s.Clear e near) (config : Config) {x : Var}
    (hx : near x) {t : Term} (ht : t.Among near) :
    (s.join e).bind config x t = (s.bind config x t).join e := by
  rw [Substitution.bind, Substitution.bind]
  by_cases hc : config.occursCheck = true
  · rw [if_pos hc, if_pos hc, h.occurs x ht]
    cases s.occurs x t with
    | error err => rfl
    | ok found => cases found with
      | true => rfl
      | false => exact h.assign hx t
  · rw [if_neg hc, if_neg hc]
    exact h.assign hx t

/-! ## Unification -/

variable {config : Config}

theorem Clear.unifyAll {f : Substitution → Term → Term → Outcome}
    (hjoin : ∀ s t u, s.Clear e near → t.Among near → u.Among near →
      f (s.join e) t u = (f s t u).join e)
    (hgrows : ∀ s s' t u, s.ValueClosed (Term.Among near) →
      t.Among near → u.Among near → f s t u = .unified s' →
      Grows config (Term.Among near) s s') :
    ∀ (ts us : List Term) (s : Substitution), s.Clear e near →
      (∀ t ∈ ts, t.Among near) → (∀ u ∈ us, u.Among near) →
      unifyAll f (s.join e) ts us = (unifyAll f s ts us).join e := by
  intro ts
  induction ts with
  | nil => intro us s _ _ _; rfl
  | cons t ts ih =>
      intro us s h hts hus
      cases us with
      | nil => rfl
      | cons u us =>
          have ht := hts t (List.mem_cons_self ..)
          have hu := hus u (List.mem_cons_self ..)
          rw [Substitution.unifyAll, Substitution.unifyAll,
            hjoin s t u h ht hu]
          cases htu : f s t u with
          | unified s' =>
              exact ih us s' (h.grows (hgrows s s' t u h.closed ht hu htu))
                (fun t ht => hts t (List.mem_cons_of_mem _ ht))
                (fun u hu => hus u (List.mem_cons_of_mem _ hu))
          | clash => rfl
          | broken err => rfl
          | unanswered => rfl

/-- Ends meet as they do without the further bindings, if their items do. -/
theorem Clear.unifyEnds {f : Substitution → Term → Term → Outcome}
    (h : s.Clear e near) {u v : Term} (hu : u.Among near)
    (hv : v.Among near)
    (hitems : ∀ m n ts us, u = .composite m ts → v = .composite n us →
      Substitution.unifyAll f (s.join e) ts us
        = (Substitution.unifyAll f s ts us).join e) :
    unifyEnds config f (s.join e) u v
      = (unifyEnds config f s u v).join e := by
  unfold Substitution.unifyEnds
  by_cases huv : u.shared v = true
  · rw [if_pos huv, if_pos huv]
    rfl
  · rw [if_neg huv, if_neg huv]
    cases u with
    | var x =>
        have hx := among_var.mp hu
        cases v with
        | var y =>
            by_cases hyx : y.id < x.id
            · simp only [if_pos hyx]
              exact h.bind config hx hv
            · simp only [if_neg hyx]
              exact h.bind config (among_var.mp hv) hu
        | atom b => exact h.bind config hx hv
        | composite n us => exact h.bind config hx hv
    | atom a =>
        cases v with
        | var y => exact h.bind config (among_var.mp hv) hu
        | atom b =>
            by_cases hab : a.equal b = true
            · simp only [if_pos hab]
              rfl
            · simp only [if_neg hab]
              rfl
        | composite n us => rfl
    | composite m ts =>
        cases v with
        | var y => exact h.bind config (among_var.mp hv) hu
        | atom b => rfl
        | composite n us =>
            by_cases hlen : ts.length = us.length
            · simp only [if_pos hlen]
              exact hitems m n ts us rfl rfl
            · simp only [if_neg hlen]
              rfl

/-- **AT EVERY DEPTH** the further bindings stay out of it. -/
theorem Clear.unifyAt (n : Nat) : ∀ (s : Substitution) (u v : Term),
    s.Clear e near → u.Among near → v.Among near →
    unifyAt config n (s.join e) u v = (unifyAt config n s u v).join e := by
  induction n with
  | zero => intro s u v _ _ _; rfl
  | succ n ih =>
      intro s u v h hu hv
      rw [Substitution.unifyAt, Substitution.unifyAt, h.walk hu, h.walk hv]
      cases hwu : s.walk u with
      | error err => rfl
      | ok u' =>
          cases hwv : s.walk v with
          | error err => rfl
          | ok v' =>
              have hu' := h.closed.walk hu hwu
              have hv' := h.closed.walk hv hwv
              refine h.unifyEnds hu' hv' ?_
              rintro m m' ts us rfl rfl
              exact Clear.unifyAll ih
                (unifyAt_grows (itemClosed_among near) n)
                ts us s h
                (itemClosed_among near m ts hu')
                (itemClosed_among near m' us hv')

/-- **UNIFICATION COMMUTES WITH FURTHER BINDINGS**, also where it has no
    answer. -/
theorem Clear.unify (h : s.Clear e near) (config : Config) {u v : Term}
    (hu : u.Among near) (hv : v.Among near) :
    (s.join e).unify config u v = (s.unify config u v).join e := by
  by_cases hno : s.unify config u v = .unanswered
  · rw [hno]
    refine unify_eq_unanswered_iff.mpr fun n => ?_
    rw [Clear.unifyAt n s u v h hu hv, unify_eq_unanswered_iff.mp hno n]
    rfl
  · rw [unify_eq_unifyAt config s] at hno ⊢
    rw [← Clear.unifyAt _ s u v h hu hv]
    refine unify_eq_of_answered ?_
    rw [Clear.unifyAt _ s u v h hu hv]
    exact fun hjoin => hno (Outcome.join_eq_unanswered hjoin)

/-- Nor does it bind what the further bindings bind. -/
theorem Clear.apart (h : s.Clear e near) (hnew : s.Apart e) {u v : Term}
    (hu : u.Among near) (hv : v.Among near) {s' : Substitution}
    (hs' : s.unify config u v = .unified s') : s'.Apart e := by
  have hgrows := unify_grows (itemClosed_among near) h.closed hu hv hs'
  intro b hb
  cases hget : s'.get? b.key with
  | none => rfl
  | some t =>
      obtain ⟨c, hc, hid, -⟩ := exists_mem_bindings hget
      rcases hgrows.of_mem_bindings hc with hold | ⟨hkey, -⟩
      · have hbound := get?_of_mem_bindings hold
        rw [get?_congr hid, hnew b hb] at hbound
        cases hbound
      · have hfar := h.far (among_var.mp hkey)
        rw [get?_congr hid, get?_of_mem_bindings hb] at hfar
        cases hfar

/-! ## What can be reached -/

/-- What can be reached from two terms is clear of bindings of other
    variables. -/
theorem Acyclic.clear (hs : s.Acyclic) {u v : Term}
    (hfar : ∀ b ∈ e.bindings,
      ¬ s.ReachesFrom u b.key.id ∧ ¬ s.ReachesFrom v b.key.id) :
    s.Clear e fun x => s.ReachesFrom u x.id ∨ s.ReachesFrom v x.id where
  chainsEnd := hs.chainsEnd
  closed := by
    intro x t hx hnear y hy
    have hstep : s.Reaches x.id y.id :=
      .step ⟨t, hx, y, hy, rfl⟩ (.refl _)
    rcases among_var.mp hnear with hu | hv
    · exact .inl (hu.trans hstep)
    · exact .inr (hv.trans hstep)
  far := by
    intro x hnear
    cases hx : e.get? x with
    | none => rfl
    | some t =>
        obtain ⟨b, hb, hid, -⟩ := exists_mem_bindings hx
        rw [← hid] at hnear
        rcases hnear with hu | hv
        · exact absurd hu (hfar b hb).1
        · exact absurd hv (hfar b hb).2

/-- **UNIFICATION IS LOCAL.**  Let `e` bind variables that an acyclic
    substitution leaves unbound and that cannot be reached from the two
    terms; its values may be anything, and it may be cyclic.  Together with
    `e`

    - the two terms clash if they do without; they unify if they do without,
      to the same substitution together with `e`, whose bindings are then
      those of both; and without the occurs check, where this is the third
      possibility, the recursion has no end if it has none without;
    - both terms have the same full values, and the same variables occur in
      them. -/
theorem Acyclic.unify_local (hs : s.Acyclic) (config : Config) (u v : Term)
    {e : Substitution} (hnew : s.Apart e)
    (hfar : ∀ b ∈ e.bindings,
      ¬ s.ReachesFrom u b.key.id ∧ ¬ s.ReachesFrom v b.key.id) :
    (s.unify config u v = .clash ∧ (s.join e).unify config u v = .clash ∨
      (∃ s', s.unify config u v = .unified s' ∧
        (s.join e).unify config u v = .unified (s'.join e) ∧
        s'.Apart e ∧ ∀ b, b ∈ (s'.join e).bindings ↔
          b ∈ s'.bindings ∨ b ∈ e.bindings) ∨
      config = .unchecked ∧ s.unify config u v = .unanswered ∧
        (s.join e).unify config u v = .unanswered) ∧
    ∀ t, t = u ∨ t = v → (s.join e).resolve t = s.resolve t ∧
      ∀ x, (s.join e).occurs x t = s.occurs x t := by
  have h := hs.clear hfar
  have hu : u.Among fun x => s.ReachesFrom u x.id ∨ s.ReachesFrom v x.id :=
    fun x hx => .inl ⟨x, hx, .refl _⟩
  have hv : v.Among fun x => s.ReachesFrom u x.id ∨ s.ReachesFrom v x.id :=
    fun x hx => .inr ⟨x, hx, .refl _⟩
  constructor
  · have hjoin := h.unify config hu hv
    cases ho : s.unify config u v with
    | clash =>
        rw [ho] at hjoin
        exact .inl ⟨rfl, hjoin⟩
    | unified s' =>
        rw [ho] at hjoin
        have hapart := h.apart hnew hu hv ho
        exact .inr (.inl ⟨s', rfl, hjoin, hapart,
          fun b => mem_bindings_join hapart⟩)
    | broken err =>
        -- walks find their ends, and the occurs check does not fail
        have hchecked := (hs.chainsEnd.of_unify_broken ho).1
        rcases config.checked_or_unchecked with rfl | rfl
        · rcases hs.unify_cases u v with hclash | ⟨s', hs'⟩
          · cases ho.symm.trans hclash
          · cases ho.symm.trans hs'
        · cases hchecked
    | unanswered =>
        rw [ho] at hjoin
        rcases config.checked_or_unchecked with rfl | rfl
        · exact absurd ho (IsDecided.ne_unanswered (hs.unify_decided u v))
        · exact .inr (.inr ⟨rfl, rfl, hjoin⟩)
  · rintro t (rfl | rfl)
    · exact ⟨h.resolve hu, fun x => h.occurs x hu⟩
    · exact ⟨h.resolve hv, fun x => h.occurs x hv⟩

/-- With `y` bound to `(x)`, the unification of `y` and `(())` binds `x`, and
    the cycle of `p` and `q` does not keep it from that, though `p` is bound
    to a term that has `x` in it. -/
theorem Acyclic.unify_local_cycle :
    let x : Var := ⟨0, "x"⟩
    let y : Var := ⟨1, "y"⟩
    let p : Var := ⟨7, "p"⟩
    let q : Var := ⟨8, "q"⟩
    let s : Substitution := ⟨(∅ : Std.ExtTreeMap Nat Entry).insert 1
      ⟨"y", .composite none [.var x]⟩⟩
    let e : Substitution := ⟨((∅ : Std.ExtTreeMap Nat Entry).insert 7
      ⟨"p", .composite none [.var q, .var x]⟩).insert 8 ⟨"q", .var p⟩⟩
    let v : Term := .composite none [.composite none []]
    s.Acyclic ∧ s.Apart e ∧ ¬ (s.join e).Acyclic ∧
    (∀ b ∈ e.bindings,
      ¬ s.ReachesFrom (.var y) b.key.id ∧ ¬ s.ReachesFrom v b.key.id) ∧
    ∃ s', s.unify .unchecked (.var y) v = .unified s' ∧
      (s.join e).unify .unchecked (.var y) v = .unified (s'.join e) := by
  intro x y p q s e v
  have hbuilt : Built (· = .checked) s :=
    .unify (u := .var y) (v := .composite none [.var x]) .empty rfl rfl
  have hkeys : ∀ b ∈ e.bindings, b.key.id = 7 ∨ b.key.id = 8 := by
    have hbindings : e.bindings = [⟨p, .composite none [.var q, .var x]⟩,
      ⟨q, .var p⟩] := rfl
    intro b hb
    rw [hbindings] at hb
    rcases List.mem_cons.mp hb with rfl | hb
    · exact .inl rfl
    · rw [List.mem_singleton.mp hb]
      exact .inr rfl
  have hnew : s.Apart e := by
    intro b hb
    rcases hkeys b hb with hkey | hkey
    · rw [get?, hkey]
      rfl
    · rw [get?, hkey]
      rfl
  have hreaches : ∀ j, s.ReachesFrom (.var y) j → j = 1 ∨ j = 0 := by
    intro j hj
    rw [reachesFrom_var, reaches_bound (t := .composite none [.var x]) rfl]
      at hj
    rcases hj with hj | ⟨z, hz, hzj⟩
    · exact .inl hj
    · rw [List.mem_singleton.mp hz] at hzj
      exact .inr (hzj.eq_of_value?_eq_none rfl)
  have hfar : ∀ b ∈ e.bindings,
      ¬ s.ReachesFrom (.var y) b.key.id ∧ ¬ s.ReachesFrom v b.key.id := by
    intro b hb
    constructor
    · intro hj
      have hkey := hkeys b hb
      have hid := hreaches _ hj
      omega
    · rintro ⟨z, hz, -⟩
      cases hz
  refine ⟨hbuilt.acyclic, hnew, ?_, hfar, ?_⟩
  · intro hacyclic
    have hp : (s.join e).Refers 7 8 :=
      ⟨.composite none [.var q, .var x], rfl, q, List.mem_cons_self .., rfl⟩
    have hq : (s.join e).Refers 8 7 :=
      ⟨.var p, rfl, p, List.mem_cons_self .., rfl⟩
    exact hacyclic 7 8 hp (.step hq (.refl 7))
  · have hunified : s.unify .unchecked (.var y) v = .unified
      ⟨s.entries.insert 0 ⟨"x", .composite none []⟩⟩ := rfl
    rcases (hbuilt.acyclic.unify_local .unchecked (.var y) v hnew hfar).1 with
      ⟨h, -⟩ | ⟨s', h, hjoin, -⟩ | ⟨-, h, -⟩
    · cases hunified.symm.trans h
    · exact ⟨s', h, hjoin⟩
    · cases hunified.symm.trans h

end Substitution

end LogicSearch
