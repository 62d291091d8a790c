/-! # Streams of answers

    A stream is what is left of a search.  It is plain data: a suspended
    piece of work is a work item of type `γ` with the answer of type `α` it
    starts from, and how a work item runs is an argument of the functions
    that advance a stream.  So the same streams serve every kind of work.

    - `advance` is one small step.  It is structural in the stream and
      starts at most one work item.
    - `pull` advances until the next answer.  Its fuel counts small steps.

    A `pending` move is where a stream hands over to its sibling: `merge`
    swaps its operands there, and only there.  A `working` move goes on
    within the same turn. -/

namespace LogicSearch

/-- A search that has been started: answers of type `α`, suspended work of
    type `γ`. -/
inductive Stream (α γ : Type) where
  /-- Nothing is left. -/
  | empty
  /-- An answer that is there already. -/
  | cons (a : α) (rest : Stream α γ)
  /-- A pause before the rest. -/
  | pause (rest : Stream α γ)
  /-- Work to be started on `a` when the stream is advanced. -/
  | call (work : γ) (a : α)
  /-- A sequence, up to its first gap, from position `next` on. -/
  | source (items : Nat → Option α) (next : Nat)
  /-- Two streams that take turns. -/
  | interleave (s t : Stream α γ)
  /-- The work is started on every answer of `s`. -/
  | forEach (s : Stream α γ) (work : γ)

/-- What one small step of a stream comes to. -/
inductive Move (α γ : Type) where
  | done
  | yield (a : α) (rest : Stream α γ)
  | pending (rest : Stream α γ)
  | working (rest : Stream α γ)

/-- What a pull comes to. -/
inductive Pull (α γ : Type) where
  | answer (a : α) (rest : Stream α γ)
  | exhausted
  | unfinished (rest : Stream α γ)

namespace Stream

variable {α γ ε : Type}

/-! ## Building streams -/

/-- The stream of a single answer. -/
def single (a : α) : Stream α γ := cons a empty

/-- The answers of a list, all there already. -/
def cells : List α → Stream α γ
  | [] => empty
  | a :: as => cons a (cells as)

/-- The answers of an array, one by one. -/
def sequence (as : Array α) : Stream α γ := source (fun i => as[i]?) 0

/-- The answers of an array, over and over. -/
def cycle (as : Array α) : Stream α γ :=
  source (fun i => as[i % as.size]?) 0

/-- The answers of two streams, taking turns; a stream that is known to be
    empty takes none. -/
def merge : Stream α γ → Stream α γ → Stream α γ
  | empty, t => t
  | s, empty => s
  | s, t => interleave s t

/-- Start the work on every answer of a stream. -/
def bind : Stream α γ → γ → Stream α γ
  | empty, _ => empty
  | s, work => forEach s work

/-- The stream is known to be empty without any step. -/
def isEmpty : Stream α γ → Bool
  | empty => true
  | _ => false

/-! ## Advancing -/

/-- One small step, given how work items run. -/
def advance (run : γ → α → Except ε (Stream α γ)) :
    Stream α γ → Except ε (Move α γ)
  | empty => .ok .done
  | cons a rest => .ok (.yield a rest)
  | pause rest => .ok (.pending rest)
  | call work a =>
      match run work a with
      | .error e => .error e
      | .ok rest => .ok (.pending rest)
  | source items next =>
      match items next with
      | none => .ok .done
      | some a => .ok (.yield a (pause (source items (next + 1))))
  | interleave s t =>
      match advance run s with
      | .error e => .error e
      | .ok .done => .ok (.working t)
      | .ok (.yield a s') => .ok (.yield a (merge s' t))
      | .ok (.pending s') => .ok (.pending (merge t s'))
      | .ok (.working s') => .ok (.working (interleave s' t))
  | forEach s work =>
      match advance run s with
      | .error e => .error e
      | .ok .done => .ok .done
      | .ok (.yield a s') =>
          match run work a with
          | .error e => .error e
          | .ok head => .ok (.working (merge head (bind s' work)))
      | .ok (.pending s') => .ok (.pending (bind s' work))
      | .ok (.working s') => .ok (.working (forEach s' work))

/-- Advance to the next answer, in at most `fuel` small steps. -/
def pull (run : γ → α → Except ε (Stream α γ)) :
    Nat → Stream α γ → Except ε (Pull α γ)
  | 0, s => .ok (.unfinished s)
  | fuel + 1, s =>
      match advance run s with
      | .error e => .error e
      | .ok .done => .ok .exhausted
      | .ok (.yield a rest) => .ok (.answer a rest)
      | .ok (.pending rest) => pull run fuel rest
      | .ok (.working rest) => pull run fuel rest

end Stream

/-- How a series of pulls ended, with what is left of the stream. -/
inductive Harvest (α γ ε : Type) where
  /-- As many answers as were asked for. -/
  | more (rest : Stream α γ)
  /-- The stream came to its end. -/
  | exhausted
  /-- The search was given up. -/
  | aborted (e : ε)
  /-- The fuel of one pull ran out. -/
  | unfinished (rest : Stream α γ)

namespace Harvest

variable {α γ ε : Type}

/-- What is left of the stream.  Nothing can be pulled after its end or
    after an abort. -/
def rest : Harvest α γ ε → Stream α γ
  | more s => s
  | exhausted => .empty
  | aborted _ => .empty
  | unfinished s => s

end Harvest

namespace Stream

variable {α γ ε : Type}

/-- Up to `count` answers, each pulled with the same fuel, and how the
    pulling ended. -/
def harvest (run : γ → α → Except ε (Stream α γ)) (fuel : Nat) :
    Nat → Stream α γ → List α × Harvest α γ ε
  | 0, s => ([], .more s)
  | count + 1, s =>
      match pull run fuel s with
      | .error e => ([], .aborted e)
      | .ok .exhausted => ([], .exhausted)
      | .ok (.unfinished s') => ([], .unfinished s')
      | .ok (.answer a s') =>
          let (as, ended) := harvest run fuel count s'
          (a :: as, ended)

/-! ## Written streams -/

/-- What follows the first cell of a written stream. -/
def tailText (text : α → String) : Stream α γ → String
  | empty => ""
  | cons a rest => " " ++ text a ++ tailText text rest
  | _ => " ..."

/-- The written form: the answers that are there already, and dots for what
    has to be searched for. -/
def text (text : α → String) : Stream α γ → String
  | empty => "()"
  | cons a rest => "(" ++ text a ++ tailText text rest ++ ")"
  | _ => "(...)"

end Stream

end LogicSearch
