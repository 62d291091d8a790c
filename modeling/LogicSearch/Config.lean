/-! # Search settings

    A search runs with or without the occurs check: with it, no variable is
    bound to a term that contains the variable. -/

namespace LogicSearch

/-- The settings of one search.  The occurs check is off by default. -/
structure Config where
  occursCheck : Bool := false
  deriving DecidableEq, Repr

namespace Config

/-- The default settings, without the occurs check. -/
def unchecked : Config := {}

/-- The settings with the occurs check. -/
def checked : Config := ⟨true⟩

/-- Turn the occurs check on or off. -/
def withOccursCheck (_ : Config) (enabled : Bool) : Config := ⟨enabled⟩

/-- There are no other settings. -/
theorem checked_or_unchecked (c : Config) : c = checked ∨ c = unchecked := by
  obtain ⟨occursCheck⟩ := c
  cases occursCheck with
  | true => exact .inl rfl
  | false => exact .inr rfl

/-- The written form of the settings. -/
def text (c : Config) : String :=
  "Config \x7b occurs_check: " ++ (if c.occursCheck then "true" else "false")
    ++ " \x7d"

end Config

end LogicSearch
