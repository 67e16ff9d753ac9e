/-! Accesses that can miss. A table is read by position or by a range of positions; a miss says
which position was asked for and how large the table is. A difference of positions can be below
zero. -/

namespace MicroCompiler

inductive BoundsError where
  | index (size index : Nat)
  | rangeStart (size start : Nat)
  | rangeStop (size stop : Nat)
  | reversed (start stop : Nat)
  | difference (m n : Nat)
  deriving DecidableEq, Repr

namespace BoundsError

def message : BoundsError → String
  | .index size i => s!"index out of bounds: the len is {size} but the index is {i}"
  | .rangeStart size i => s!"range start index {i} out of range for slice of length {size}"
  | .rangeStop size i => s!"range end index {i} out of range for slice of length {size}"
  | .reversed start stop => s!"slice index starts at {start} but ends at {stop}"
  | .difference _ _ => "attempt to subtract with overflow"

/-- The entry at a position. -/
def fetch (table : Array α) (i : Nat) : Except BoundsError α :=
  match table[i]? with
  | some a => .ok a
  | none => .error (.index table.size i)

/-- The `length` entries from `start` on. -/
def slice (table : Array α) (start length : Nat) : Except BoundsError (List α) :=
  if table.size < start then .error (.rangeStart table.size start)
  else if table.size < start + length then .error (.rangeStop table.size (start + length))
  else .ok (table.extract start (start + length)).toList

/-- The difference of two positions. -/
def minus (m n : Nat) : Except BoundsError Nat :=
  if n ≤ m then .ok (m - n) else .error (.difference m n)

end BoundsError

end MicroCompiler
