import LogicSearch.Error
import Std.Data.ExtTreeMap

/-! # Substitutions

    A substitution is a finite map from variables to terms, kept by id, that
    remembers which copy of a variable was bound.  Nothing is ever unbound
    or rebound, so a substitution that was extended still holds all it held
    before.

    - `get?_extend` says what an extension changes.
    - `walk` follows bindings from variable to variable; `chase` is the same
      walk with its steps counted. -/

namespace LogicSearch

/-- A bound variable with its value. -/
structure Binding where
  key : Var
  value : Term
  deriving DecidableEq, Repr

/-- What is kept under the id of a bound variable: the label of the copy that
    was bound, and the value. -/
structure Entry where
  label : String
  value : Term
  deriving DecidableEq, Repr

/-- A finite map from variables to terms. -/
structure Substitution where
  entries : Std.ExtTreeMap Nat Entry

namespace Substitution

/-- Nothing is bound. -/
def empty : Substitution := ⟨∅⟩

instance : Inhabited Substitution := ⟨empty⟩

/-- The number of bound variables. -/
def size (s : Substitution) : Nat := s.entries.size

/-- Nothing is bound in `s`. -/
def isEmpty (s : Substitution) : Bool := s.size == 0

/-- The term that the variable with the given id is directly bound to. -/
def value? (s : Substitution) (id : Nat) : Option Term :=
  s.entries[id]?.map (·.value)

/-- The term that `x` is directly bound to. -/
def get? (s : Substitution) (x : Var) : Option Term := s.value? x.id

/-- The bindings in the order of their ids. -/
def bindings (s : Substitution) : List Binding :=
  s.entries.toList.map fun (id, e) => ⟨⟨id, e.label⟩, e.value⟩

/-- Bind one more variable, which must not have a value yet. -/
def extend (s : Substitution) (x : Var) (t : Term) :
    Except Error Substitution :=
  match s.get? x with
  | some _ => .error (.alreadyBound x)
  | none => .ok ⟨s.entries.insert x.id ⟨x.label, t⟩⟩

/-- The same variables are bound, to equal terms. -/
def equal (s t : Substitution) : Bool :=
  s.size == t.size && s.bindings.all fun b =>
    match t.get? b.key with
    | some v => b.value.equal v
    | none => false

/-- The written form: the bindings in the order of their ids. -/
def text (s : Substitution) : String :=
  "\x7b" ++ ", ".intercalate
    (s.bindings.map fun b => b.key.text ++ ": " ++ b.value.text) ++ "\x7d"

/-! ## Following chains of variables -/

/-- Follow at most `steps` bindings from variable to variable; `none` if one
    more could be followed. -/
def chase (s : Substitution) : Nat → Term → Option Term
  | steps, .var x =>
      match s.get? x, steps with
      | none, _ => some (.var x)
      | some _, 0 => none
      | some t, steps + 1 => chase s steps t
  | _, t => some t

/-- The end of the chain that starts at a term: an unbound variable or no
    variable at all.  A chain that follows more bindings than there are goes
    in a circle. -/
def walk (s : Substitution) (t : Term) : Except Error Term :=
  match t with
  | .var x =>
      match s.chase s.size t with
      | some u => .ok u
      | none => .error (.cyclicBinding x (s.size + 1))
  | _ => .ok t

/-! ## What the operations do to single variables -/

@[simp] theorem value?_empty (i : Nat) : empty.value? i = none := by
  simp [empty, value?]

@[simp] theorem get?_empty (x : Var) : empty.get? x = none :=
  value?_empty x.id

/-- Variables are looked up by their ids alone. -/
theorem get?_congr {s : Substitution} {x y : Var} (h : x.id = y.id) :
    s.get? x = s.get? y := by
  rw [get?, get?, h]

@[simp] theorem size_empty : empty.size = 0 := by
  simp [empty, size]

theorem extend_eq_ok_iff {s s' : Substitution} {x : Var} {t : Term} :
    s.extend x t = .ok s' ↔ s.get? x = none
      ∧ s' = ⟨s.entries.insert x.id ⟨x.label, t⟩⟩ := by
  unfold extend
  cases hx : s.get? x with
  | some u => simp
  | none => simp [eq_comm]

/-- An extension gives `x` its value and leaves every other variable
    alone. -/
theorem get?_extend {s s' : Substitution} {x : Var} {t : Term}
    (h : s.extend x t = .ok s') (y : Var) :
    s'.get? y = if y.id = x.id then some t else s.get? y := by
  obtain ⟨-, rfl⟩ := extend_eq_ok_iff.mp h
  unfold get? value?
  rw [Std.ExtTreeMap.getElem?_insert]
  by_cases hxy : y.id = x.id
  · simp [hxy]
  · simp [hxy, Ne.symm hxy]

/-- The bindings are what is kept under the ids. -/
theorem mem_bindings {s : Substitution} {b : Binding} :
    b ∈ s.bindings ↔ s.entries[b.key.id]? = some ⟨b.key.label, b.value⟩ := by
  rw [bindings, List.mem_map]
  constructor
  · rintro ⟨⟨id, e⟩, he, rfl⟩
    exact Std.ExtTreeMap.mem_toList_iff_getElem?_eq_some.mp he
  · intro hb
    exact ⟨_, Std.ExtTreeMap.mem_toList_iff_getElem?_eq_some.mpr hb, rfl⟩

/-- The variable of a binding is bound to the value of the binding. -/
theorem get?_of_mem_bindings {s : Substitution} {b : Binding}
    (h : b ∈ s.bindings) : s.get? b.key = some b.value := by
  rw [get?, value?, mem_bindings.mp h]
  rfl

/-- And what is bound is bound by some binding. -/
theorem exists_mem_bindings {s : Substitution} {i : Nat} {t : Term}
    (h : s.value? i = some t) :
    ∃ b ∈ s.bindings, b.key.id = i ∧ b.value = t := by
  obtain ⟨e, he, rfl⟩ := Option.map_eq_some_iff.mp h
  exact ⟨⟨⟨i, e.label⟩, e.value⟩, mem_bindings.mpr he, rfl, rfl⟩

/-- An extension adds one binding and keeps the others. -/
theorem mem_bindings_extend {s s' : Substitution} {x : Var} {t : Term}
    (h : s.extend x t = .ok s') {b : Binding} :
    b ∈ s'.bindings ↔ b = ⟨x, t⟩ ∨ b ∈ s.bindings := by
  obtain ⟨hx, rfl⟩ := extend_eq_ok_iff.mp h
  obtain ⟨⟨i, label⟩, v⟩ := b
  obtain ⟨j, name⟩ := x
  have hj : s.entries[j]? = none := Option.map_eq_none_iff.mp hx
  rw [mem_bindings, mem_bindings, Std.ExtTreeMap.getElem?_insert]
  by_cases hji : j = i
  · subst hji
    simp [hj, eq_comm]
  · simp [hji, Ne.symm hji]

/-- So there is one more of them. -/
theorem size_extend {s s' : Substitution} {x : Var} {t : Term}
    (h : s.extend x t = .ok s') : s'.size = s.size + 1 := by
  obtain ⟨hx, rfl⟩ := extend_eq_ok_iff.mp h
  have hfree : s.entries.contains x.id = false := by
    rw [Std.ExtTreeMap.contains_eq_isSome_getElem?,
      Option.map_eq_none_iff.mp hx, Option.isSome_none]
  unfold size
  rw [Std.ExtTreeMap.size_insert, hfree]
  rfl

end Substitution

end LogicSearch
