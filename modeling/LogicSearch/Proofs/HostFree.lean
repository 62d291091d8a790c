import LogicSearch.Goal.Minting
import LogicSearch.Goal.Shape
import LogicSearch.Proofs.Application
import LogicSearch.Proofs.Minting

/-! # Searches without host goals

    All that a goal without host goals does to a state is to mint variables
    and to unify terms.  A property of states that these two keep holds of
    every state of such a search (`State.Kept`, `Goal.apply_kept`), and the
    search is given up only as its unifications fail.  Of minting only that
    matters which the goal does (`Goal.apply_kept_of_mints`).

    - Checked states are kept, and every unification in them is decided, so
      a checked search is never given up (`Search.Checked.neverAborts`).
    - What the host goals of the program do does not matter: the search is
      the same in the program in which every host goal gives up
      (`Search.HostFree.nth_hostless`).  So its answers are its derivations
      there (`Program.nth_equiv_derivations`). -/

namespace LogicSearch

variable {sg : Signature} {P : Program sg} {n : Nat} {scope : Scope n}
  {frame : Frame} {st : State} {p : State → Prop} {allowed : Abort → Prop}

/-- The suspended goal has no host goals. -/
def Closure.HostFree (c : Closure sg) : Prop := c.goal.HostFree

/-- Unifying keeps `p`, and it fails only as is allowed. -/
structure State.KeptByUnifying (p : State → Prop) (allowed : Abort → Prop) :
    Prop where
  unify {st : State} {u v : Term} {s : Substitution} : p st →
    st.unify u v = .unified s → p (st.withSubstitution s)
  broken {st : State} {u v : Term} {e : Error} : p st →
    st.unify u v = .broken e → allowed (.error e)
  unanswered {st : State} {u v : Term} : p st →
    st.unify u v = .unanswered → allowed .unanswered

/-- Minting keeps `p`, too. -/
structure State.Kept (p : State → Prop) (allowed : Abort → Prop) : Prop
    extends State.KeptByUnifying p allowed where
  fresh {st : State} (label : String) : p st → p (st.fresh label).2

/-- **WHAT UNIFYING KEEPS, GOALS KEEP**, if it is kept wherever they mint. -/
theorem Goal.apply_kept_of_mints (hp : State.KeptByUnifying p allowed)
    (hP : P.HostFree) {g : Goal sg n} (hg : g.HostFree)
    (hfresh : ∀ b label, g.Mints P scope frame st b label → p b →
      p (b.fresh label).2) (hst : p st) :
    Meets (Stream.Every p Closure.HostFree) allowed
      (g.apply P scope frame st) := by
  induction g generalizing st with
  | eq u v =>
      rw [apply, equate]
      cases h : st.unify (u.eval scope frame) (v.eval scope frame) with
      | unified s => exact Stream.every_single (hp.unify hst h)
      | clash => trivial
      | broken e => exact hp.broken hst h
      | unanswered => exact hp.unanswered hst h
  | succeed => exact Stream.every_single hst
  | fail => trivial
  | conj g g' ih _ =>
      have hleft := ih hg.1 (fun b label h => hfresh b label (.conj h)) hst
      rw [apply]
      cases h : g.apply P scope frame st with
      | error e => exact hleft.error h
      | ok s => exact Stream.Every.bind (hleft.ok h) hg.2
  | disj g g' ih ih' =>
      have hleft := ih hg.1 (fun b label h => hfresh b label (.left h)) hst
      have hright := ih' hg.2 (fun b label h => hfresh b label (.right h)) hst
      rw [apply]
      cases h : g.apply P scope frame st with
      | error e => exact hleft.error h
      | ok s =>
          dsimp only
          cases h' : g'.apply P scope frame st with
          | error e => exact hright.error h'
          | ok t => exact Stream.Every.merge (hleft.ok h) (hright.ok h')
  | fresh label body ih =>
      exact ih hg (fun b other h => hfresh b other (.body h))
        (hfresh st label .here hst)
  | letTerm e body ih =>
      exact ih hg (fun b label h => hfresh b label (.letTerm h)) hst
  | delay body _ => exact ⟨hg, hst⟩
  | always => exact ⟨⟨trivial, trivial⟩, hst⟩
  | never => exact ⟨trivial, hst⟩
  | call site r args fits => exact ⟨hP r, hst⟩
  | host h => exact hg.elim

/-- What minting and unifying keep, goals keep. -/
theorem Goal.apply_kept (hp : State.Kept p allowed) (hP : P.HostFree)
    {g : Goal sg n} (hg : g.HostFree) (hst : p st) :
    Meets (Stream.Every p Closure.HostFree) allowed
      (g.apply P scope frame st) :=
  apply_kept_of_mints hp.toKeptByUnifying hP hg
    (fun _ label _ hb => hp.fresh label hb) hst

/-- So do suspended goals. -/
theorem Program.start_kept (hp : State.Kept p allowed) (hP : P.HostFree)
    (c : Closure sg) (st : State) (hc : c.HostFree) (hst : p st) :
    Meets (Stream.Every p Closure.HostFree) allowed (P.start c st) :=
  Goal.apply_kept hp hP hc hst

/-! ## Checked searches -/

/-- Checked states, and suspended goals without host goals. -/
def Search.Checked (s : Search sg) : Prop :=
  s.Every State.Checked Closure.HostFree

/-- Unification is decided in a checked state, so nothing needs to be
    allowed. -/
theorem State.kept_checked : State.Kept Checked fun _ => False where
  fresh label hst := hst.fresh label
  unify hst h := hst.unify h
  broken {st u v e} hst h := by
    rcases hst.unify_cases u v with h' | ⟨s, h'⟩
    · exact nomatch h.symm.trans h'
    · exact nomatch h.symm.trans h'
  unanswered {st u v} hst h := by
    rcases hst.unify_cases u v with h' | ⟨s, h'⟩
    · exact nomatch h.symm.trans h'
    · exact nomatch h.symm.trans h'

/-- **NO CHECKED APPLICATION FAILS.** -/
theorem Goal.apply_checked (hP : P.HostFree) {g : Goal sg n}
    (hg : g.HostFree) (hst : st.Checked) :
    ∃ s, g.apply P scope frame st = .ok s ∧ s.Checked :=
  (apply_kept State.kept_checked hP hg hst).exists_ok

theorem Program.start_checked (hP : P.HostFree) (c : Closure sg)
    (st : State) (hc : c.HostFree) (hst : st.Checked) :
    ∃ s, P.start c st = .ok s ∧ Search.Checked s :=
  Goal.apply_checked hP hc hst

theorem Search.Checked.neverAborts (hP : P.HostFree) {s : Search sg}
    (hs : s.Checked) : s.NeverAborts P.start :=
  Stream.Every.neverAborts (P.start_checked hP) hs

/-! ## The host goals do not matter -/

/-- All suspended goals of the search are without host goals. -/
def Search.HostFree (s : Search sg) : Prop :=
  s.Every (fun _ => True) Closure.HostFree

theorem State.kept_true : State.Kept (fun _ => True) fun _ => True where
  fresh _ _ := trivial
  unify _ _ := trivial
  broken _ _ := trivial
  unanswered _ _ := trivial

theorem Search.Checked.hostFree {s : Search sg} (hs : s.Checked) :
    s.HostFree :=
  hs.mono (fun _ _ => trivial) fun _ hc => hc

theorem Goal.apply_hostFree (hP : P.HostFree) {g : Goal sg n}
    (hg : g.HostFree) {s : Search sg}
    (h : g.apply P scope frame st = .ok s) : s.HostFree :=
  (apply_kept State.kept_true hP hg trivial).ok h

/-- The program in which every host goal gives the search up. -/
def Program.hostless (P : Program sg) : Program sg :=
  { P with host := fun _ _ => .error .unanswered }

theorem Program.hostless_lists : P.hostless.Lists :=
  fun _ _ _ h => nomatch h

theorem Goal.apply_hostless {g : Goal sg n} (hg : g.HostFree) :
    g.apply P.hostless scope frame st = g.apply P scope frame st := by
  induction g generalizing st with
  | conj g g' ih _ => rw [apply, apply, ih hg.1]
  | disj g g' ih ih' => rw [apply, apply, ih hg.1, ih' hg.2]
  | fresh label body ih => exact ih hg
  | letTerm e body ih => exact ih hg
  | host h => exact hg.elim
  | _ => rfl

/-- **THE HOST GOALS DO NOT MATTER** where none is used. -/
theorem Search.HostFree.nth_hostless (hP : P.HostFree) {s : Search sg}
    (hs : s.HostFree) {k : Nat} {a : State} :
    s.Nth P.hostless.start k a ↔ s.Nth P.start k a :=
  hs.nth_congr (P.start_kept State.kept_true hP)
    fun _ _ hc => Goal.apply_hostless hc

/-- **WITHOUT HOST GOALS, ANSWERS ARE DERIVATIONS** in the program without
    them, if the search is never given up. -/
theorem Program.nth_equiv_derivations (hP : P.HostFree) {g : Goal sg 0}
    (hg : g.HostFree) {s : Search sg} (hrun : P.run g st = .ok s)
    (hs : s.NeverAborts P.start) (a : State) :
    Nonempty ({k // s.Nth P.start k a} ≃ P.hostless.Derives g st a) := by
  have hfree : s.HostFree := Goal.apply_hostFree hP hg hrun
  have hrun' : P.hostless.run g st = .ok s :=
    (Goal.apply_hostless hg).trans hrun
  have hs' : s.NeverAborts P.hostless.start :=
    hfree.neverAborts_of_agree (P.start_kept State.kept_true hP)
      (fun _ _ hc => Goal.apply_hostless hc) hs
  obtain ⟨p⟩ := exists_applied P.hostless_lists hrun'
  obtain ⟨e⟩ := p.nth_equiv P.hostless_lists hs' a
  exact ⟨(Equiv.subtypeEquivRight fun k =>
    (hfree.nth_hostless hP).symm).trans e⟩

theorem Search.Checked.nth_hostless (hP : P.HostFree) {s : Search sg}
    (hs : s.Checked) {k : Nat} {a : State} :
    s.Nth P.hostless.start k a ↔ s.Nth P.start k a :=
  hs.hostFree.nth_hostless hP

end LogicSearch
