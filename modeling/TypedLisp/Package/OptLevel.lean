/-!
# Optimisation levels

How much effort goes into making code fast. The level never changes what a program does.
-/

namespace TypedLisp

/-- An optimisation level. -/
inductive OptLevel where
  | none
  | speed
  | speedAndSize
deriving DecidableEq, Repr

namespace OptLevel

/-- The name of a level. -/
def text : OptLevel → String
  | .none => "none"
  | .speed => "speed"
  | .speedAndSize => "speed_and_size"

/-- The level of a name; the last level has two spellings. -/
def ofText? (s : String) : Option OptLevel :=
  if s = "none" then some .none
  else if s = "speed" then some .speed
  else if s = "speed_and_size" ∨ s = "speed-and-size" then some .speedAndSize
  else Option.none

/-- The message for a text that names no level. -/
def unknownMessage (s : String) : String :=
  "unknown opt level '" ++ s ++ "' (expected none, speed or speed_and_size)"

end OptLevel

end TypedLisp
