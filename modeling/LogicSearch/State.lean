import LogicSearch.Substitution.Unify

/-! # Search states

    A state is a substitution together with the variables minted so far.
    Minting takes the next id from a counter, so variables minted on one
    branch of a search have different ids; branches that part after a state
    mint the same ids independently of each other. -/

namespace LogicSearch

/-- A branch of a search. -/
structure State where
  substitution : Substitution := .empty
  /-- The id of the variable that is minted next. -/
  counter : Nat := 0
  /-- The minted variables, newest first. -/
  minted : List Var := []
  config : Config := {}

namespace State

/-- The state in which nothing is bound or minted. -/
def initial (config : Config) : State := { config }

/-- The minted variables, oldest first. -/
def history (st : State) : List Var := st.minted.reverse

/-- Mint a variable. -/
def fresh (st : State) (label : String) : Var × State :=
  let x : Var := ⟨st.counter, label⟩
  (x, { st with counter := st.counter + 1, minted := x :: st.minted })

/-- The state with another substitution. -/
def withSubstitution (st : State) (s : Substitution) : State :=
  { st with substitution := s }

/-- Unify two terms under the bindings and the settings of the state. -/
def unify (st : State) (u v : Term) : Outcome :=
  st.substitution.unify st.config u v

/-- The full value of a variable. -/
def lookup (st : State) (x : Var) : Except Error Term :=
  st.substitution.resolve (.var x)

/-- The most recently minted variable with the given label. -/
def named? (st : State) (label : String) : Option Var :=
  st.minted.find? fun x => x.label == label

/-- The full value of the most recently minted variable with the given
    label; `none` if there is no such variable. -/
def lookupNamed (st : State) (label : String) :
    Except Error (Option Term) :=
  match st.named? label with
  | some x => (st.lookup x).map some
  | none => .ok none

/-- The full values of some variables, up to the first that has none. -/
def lookupAll (st : State) : List Var → Except Error (List Binding)
  | [] => .ok []
  | x :: xs =>
      match st.lookup x with
      | .error e => .error e
      | .ok t =>
          match st.lookupAll xs with
          | .error e => .error e
          | .ok bs => .ok (⟨x, t⟩ :: bs)

/-- Every minted variable with its full value, oldest first. -/
def bindings (st : State) : Except Error (List Binding) :=
  st.lookupAll st.history

/-- Equal substitutions, one counter, the same minted variables and the same
    settings. -/
def equal (a b : State) : Bool :=
  a.substitution.equal b.substitution && a.counter == b.counter
    && a.minted.map (·.id) == b.minted.map (·.id) && a.config == b.config

/-- The written form of a state. -/
def text (st : State) : String :=
  "State \x7b substitution: " ++ st.substitution.text
    ++ ", counter: " ++ toString st.counter
    ++ ", variables: [" ++ ", ".intercalate (st.history.map Var.text)
    ++ "], config: " ++ st.config.text ++ " \x7d"

end State

end LogicSearch
