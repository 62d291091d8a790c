import LogicSearch.Numeral.Layout
import LogicSearch.Text.Quoted

/-! # Atomic values

    The leaves of a term carry typed values.  Two values are the same value
    only if their types agree, so `5` of one integer type and `5` of another
    are different.

    A host program can add types of its own.  All that is asked of such a
    type is an equality that is symmetric and transitive, and a value of it
    counts through its class under that equality only; a value that is not
    equal to itself has none.

    - `Value.equal` is equality of type and value; on floats it is numeric
      equality, so it is symmetric and transitive, and it is reflexive on
      everything but a NaN (`Value.equal_self`).
    - `Value.text` is the written form. -/

namespace LogicSearch

/-- The width of an integer type; the machine word is a width of its own. -/
inductive Width where
  | bits8
  | bits16
  | bits32
  | bits64
  | bits128
  | word
  deriving DecidableEq, Repr

/-- An integer type. -/
structure IntType where
  signed : Bool
  width : Width
  deriving DecidableEq, Repr

/-- The signed integers of 32 bits, the type of plain numbers. -/
def IntType.signed32 : IntType := ⟨true, .bits32⟩

/-- The type of a value. -/
inductive ValueType where
  | unit
  | bool
  | char
  | string
  | int (type : IntType)
  | float32
  | float64
  /-- A type of the host program. -/
  | host (name : String)
  deriving DecidableEq, Repr

/-- A typed value.  Floats are kept as their bit patterns. -/
inductive Value where
  | unit
  | bool (b : Bool)
  | char (c : Char)
  | string (s : String)
  | int (type : IntType) (n : Int)
  | float32 (bits : UInt32)
  | float64 (bits : UInt64)
  /-- A value of a type of the host program, by its class under the equality
      of that type, with its written form. -/
  | host (type : String) (cls : Option Nat) (text : String)
  deriving DecidableEq, Repr

namespace Value

/-- The type of a value. -/
def type : Value → ValueType
  | unit => .unit
  | bool _ => .bool
  | char _ => .char
  | string _ => .string
  | int t _ => .int t
  | float32 _ => .float32
  | float64 _ => .float64
  | host type _ _ => .host type

/-- Equal type and equal value, floats being compared as numbers. -/
def equal : Value → Value → Bool
  | float32 a, float32 b =>
      Numeral.Format.binary32.sameNumber a.toNat b.toNat
  | float64 a, float64 b =>
      Numeral.Format.binary64.sameNumber a.toNat b.toNat
  | host t c _, host t' c' _ => t == t' && c.isSome && c == c'
  | u, v => u == v

/-- The value is a float that is not a number, or a host value without a
    class: these are not equal to themselves. -/
def isNaN : Value → Bool
  | float32 a => Numeral.Format.binary32.isNaN a.toNat
  | float64 a => Numeral.Format.binary64.isNaN a.toNat
  | host _ c _ => c.isNone
  | _ => false

/-- The written form of a value. -/
def text : Value → String
  | unit => "()"
  | bool b => if b then "true" else "false"
  | char c => Text.quoted '\'' [c]
  | string s => Text.quoted '"' s.toList
  | int _ n => toString n
  | float32 a => Numeral.Layout.plain.float .binary32 a.toNat
  | float64 a => Numeral.Layout.plain.float .binary64 a.toNat
  | host _ _ text => text

/-! ## Laws of value equality -/

theorem equal_self (u : Value) : u.equal u = !u.isNaN := by
  cases u <;> simp [equal, isNaN, Numeral.Format.sameNumber_self]

theorem equal_comm (u v : Value) : u.equal v = v.equal u := by
  unfold equal
  split
  · exact Numeral.Format.sameNumber_comm _ _ _
  · exact Numeral.Format.sameNumber_comm _ _ _
  · next t c _ t' c' _ =>
    rw [Bool.eq_iff_iff]
    simp only [Bool.and_eq_true, beq_iff_eq]
    constructor
    · rintro ⟨⟨rfl, hc⟩, rfl⟩
      exact ⟨⟨rfl, hc⟩, rfl⟩
    · rintro ⟨⟨rfl, hc⟩, rfl⟩
      exact ⟨⟨rfl, hc⟩, rfl⟩
  · next h32 h64 hhost =>
    split
    · exact absurd rfl (h32 _ _ rfl)
    · exact absurd rfl (h64 _ _ rfl)
    · exact absurd rfl (hhost _ _ _ _ _ _ rfl)
    · exact BEq.comm

theorem equal_trans {u v w : Value} (huv : u.equal v = true)
    (hvw : v.equal w = true) : u.equal w = true := by
  cases u <;> cases v <;> cases w <;> simp_all [equal]
  all_goals exact Numeral.Format.sameNumber_trans _ huv hvw

/-- Equal values have one type. -/
theorem type_eq_of_equal {u v : Value} (h : u.equal v = true) :
    u.type = v.type := by
  cases u <;> cases v <;> simp_all [equal, type]

end Value

end LogicSearch
