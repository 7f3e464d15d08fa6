/-!
# Sets of characters given by code point ranges

A property of characters that a standard lists in a table is kept as a list of closed ranges of
code points. `inRanges` reads such a table. A long table is written as lengths
(`Ranges.ofLengths`): how many code points are passed over, how many are listed, and so on.
-/

namespace TypedLisp.Text

/-- A table of closed ranges of code points. -/
abbrev Ranges := List (Nat × Nat)

/-- The table that passes over some code points after the first `here` ones, lists some, and so on in
turn. -/
def Ranges.ofLengths (here : Nat) : List Nat → Ranges
  | passed :: listed :: rest =>
    (here + passed, here + passed + listed - 1) :: ofLengths (here + passed + listed) rest
  | _ => []

/-- Whether the table lists the character. -/
def inRanges (table : Ranges) (c : Char) : Bool :=
  table.any fun (lo, hi) => lo ≤ c.toNat && c.toNat ≤ hi

end TypedLisp.Text
