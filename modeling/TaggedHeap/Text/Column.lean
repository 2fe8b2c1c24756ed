/-!
# Columns

A column has a width that short texts are filled up to. Long texts keep their length: filling never
cuts, cutting to a precision is a step of its own.
-/

namespace TaggedHeap

/-- Where a text stands in its column. -/
inductive Alignment where
  | left
  | right
  | center
deriving DecidableEq, Repr

/-- A column of a given width and fill. -/
structure Column where
  alignment : Alignment := .left
  width : Nat
  fill : Char := ' '
  /-- The number of characters kept of a text before it is filled up. -/
  precision : Option Nat := none
deriving Repr

namespace Column

/-- How many fill characters go before and after a text of length `n`; centred, the odd one goes
after it. -/
def margins (c : Column) (n : Nat) : Nat × Nat :=
  let room := c.width - n
  match c.alignment with
  | .left => (0, room)
  | .right => (room, 0)
  | .center => (room / 2, room - room / 2)

def place (c : Column) (s : String) : String :=
  let kept := match c.precision with
    | none => s.toList
    | some p => s.toList.take p
  let m := c.margins kept.length
  String.ofList (List.replicate m.1 c.fill ++ kept ++ List.replicate m.2 c.fill)

end Column

end TaggedHeap
