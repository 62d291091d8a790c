/-! # Marks

    A literal leaves a *mark* on what it builds: the place it stands at and
    the chain of calls it was reached through, its *frame*.  One literal met
    again on one branch of a search carries the same mark, so marks tell
    apart two NaNs that were written twice from one NaN that was passed
    around.  Another run builds its literals anew, and has frames of its own.

    A recursion makes frames long, and most of them differ only far down, so
    a frame carries a digest of its calls.  Frames are equal if their calls
    are (`Frame.ext_sites`); the digest saves the look at them. -/

namespace LogicSearch

/-- A number that tells most chains of calls apart. -/
def digestOf : List Nat → Nat
  | [] => 0
  | site :: sites => (digestOf sites * 48271 + site + 1) % 2147483647

/-- The calls on the way to a place in a program, innermost first. -/
structure Frame where
  sites : List Nat
  digest : Nat := digestOf sites
  digest_eq : digest = digestOf sites := by rfl
  deriving Repr

namespace Frame

/-- No call was made yet. -/
def outermost : Frame := { sites := [] }

/-- One more call, made at the given place. -/
def enter (frame : Frame) (site : Nat) : Frame where
  sites := site :: frame.sites
  digest := (frame.digest * 48271 + site + 1) % 2147483647
  digest_eq := by rw [frame.digest_eq, digestOf]

/-- The calls make the frame. -/
theorem ext_sites {f g : Frame} (h : f.sites = g.sites) : f = g := by
  obtain ⟨sites, digest, hf⟩ := f
  obtain ⟨sites', digest', hg⟩ := g
  cases h
  rw [← hg] at hf
  cases hf
  rfl

/-- Frames with different digests differ, and one list of calls in memory is
    not compared with itself. -/
instance : DecidableEq Frame := fun f g =>
  if h : f.digest = g.digest then
    match withPtrEqDecEq f.sites g.sites fun _ => inferInstance with
    | isTrue hs => isTrue (ext_sites hs)
    | isFalse hs => isFalse fun hfg => hs (congrArg sites hfg)
  else isFalse fun hfg => h (congrArg digest hfg)

end Frame

/-- Where a literal stands, and the calls on the way to it. -/
structure Mark where
  site : Nat
  frame : Frame
  deriving DecidableEq, Repr

end LogicSearch
