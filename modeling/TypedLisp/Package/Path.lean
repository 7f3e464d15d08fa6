/-!
# Paths

Paths as text: names divided by slashes. Repeated slashes count as one, and a name `.` counts only
at the start of a path that does not begin with a slash.
-/

namespace TypedLisp

namespace Path

/-- Whether a path begins at the root. -/
def isAbsolute (p : String) : Bool := p.toList.head? = some '/'

/-- Divides a path into its start, which is `/`, a name `.` or nothing, and the names after it. -/
def splitStart : List Char → List Char × List Char
  | '/' :: cs => (['/'], cs)
  | ['.'] => (['.'], [])
  | '.' :: '/' :: cs => (['.'], '/' :: cs)
  | cs => ([], cs)

/-- The last name of a path that is written backwards. -/
def lastName (back : List Char) : List Char := back.takeWhile (· != '/')

/-- A path that is written backwards, without its last name. -/
def dropName (back : List Char) : List Char := (back.dropWhile (· != '/')).drop 1

theorem length_dropName_lt {c : Char} {cs : List Char} :
    (dropName (c :: cs)).length < (c :: cs).length := by
  have h : ((c :: cs).dropWhile (· != '/')).length ≤ (c :: cs).length :=
    (List.dropWhile_suffix _).length_le
  simp only [dropName, List.length_drop, List.length_cons] at h ⊢
  omega

/-- A path that is written backwards, without slashes and names `.` at its end. -/
def trimEnd (back : List Char) : List Char :=
  match back with
  | [] => []
  | c :: cs =>
    if lastName (c :: cs) = [] ∨ lastName (c :: cs) = ['.'] then trimEnd (dropName (c :: cs))
    else c :: cs
termination_by back.length
decreasing_by exact length_dropName_lt

/-- The path without its last name; the root and the empty path have no parent. -/
def parent? (p : String) : Option String :=
  let (start, names) := splitStart p.toList
  match trimEnd names.reverse with
  | [] => if start = ['.'] then some "" else none
  | back => some (String.ofList (start ++ (trimEnd (dropName back)).reverse))

/-- The path `p` as seen from the directory `dir`. -/
def join (dir p : String) : String :=
  if isAbsolute p then p
  else if dir.toList.getLast?.all (· = '/') then dir ++ p
  else dir ++ "/" ++ p

end Path

end TypedLisp
