import TaggedHeap.Text.Cluster

/-!
# Backspaces

In a line that was typed, a backspace takes away the cluster in front of it. How much that is was
noted in a byte when the cluster was typed, so of a cluster of 256 bytes or more only the remainder
goes, and a remainder that ends within a character cannot be taken away. A line without backspaces
is left as it is.
-/

namespace TaggedHeap

/-- What is left of the characters typed so far. -/
structure Typed where
  /-- The characters, the last one first. -/
  kept : List Char := []
  /-- How many bytes the coming backspaces take away, the next one first. -/
  noted : List Nat := []
deriving DecidableEq, Repr

def backspace : Char := '\x08'

def utf8Length (cs : List Char) : Nat := cs.foldr (fun c n => c.utf8Size + n) 0

/-- Takes `n` bytes away from the front of a text, if they are whole characters. -/
def dropBytes? : Nat → List Char → Option (List Char)
  | 0, cs => some cs
  | _ + 1, [] => none
  | n + 1, c :: cs => if c.utf8Size ≤ n + 1 then dropBytes? (n + 1 - c.utf8Size) cs else none

namespace Typed

/-- What is left after one more cluster. -/
def type? (t : Typed) (g : List Char) : Option Typed :=
  if g = [backspace] then
    match t.noted with
    | [] => some t
    | n :: noted => (dropBytes? n t.kept).map fun kept => ⟨kept, noted⟩
  else some ⟨g.reverse ++ t.kept, utf8Length g % 256 :: t.noted⟩

end Typed

/-- The line that is left when each backspace has taken away the cluster in front of it; none if one
of them would take away a part of a character. -/
def applyBackspaces? (cs : List Char) : Option (List Char) :=
  ((clusters cs).foldlM Typed.type? {}).map fun t => t.kept.reverse

theorem dropBytes?_utf8Length (cs rest : List Char) :
    dropBytes? (utf8Length cs) (cs ++ rest) = some rest := by
  induction cs with
  | nil => simp [utf8Length, dropBytes?]
  | cons c cs ih =>
    have hc := c.utf8Size_pos
    obtain ⟨n, hn⟩ : ∃ n, c.utf8Size + utf8Length cs = n + 1 :=
      ⟨c.utf8Size + utf8Length cs - 1, by omega⟩
    show dropBytes? (c.utf8Size + utf8Length cs) (c :: (cs ++ rest)) = some rest
    rw [hn, dropBytes?, if_pos (by omega), ← hn, Nat.add_sub_cancel_left, ih]

theorem utf8Length_append (as bs : List Char) :
    utf8Length (as ++ bs) = utf8Length as + utf8Length bs := by
  induction as with
  | nil => simp [utf8Length]
  | cons a as ih =>
    show a.utf8Size + utf8Length (as ++ bs) = a.utf8Size + utf8Length as + utf8Length bs
    omega

theorem utf8Length_reverse (cs : List Char) : utf8Length cs.reverse = utf8Length cs := by
  induction cs with
  | nil => rfl
  | cons c cs ih =>
    rw [List.reverse_cons, utf8Length_append, ih]
    show utf8Length cs + c.utf8Size = c.utf8Size + utf8Length cs
    omega

/-- A backspace undoes a cluster of less than 256 bytes. -/
theorem type?_backspace {t : Typed} {g : List Char} (hg : g ≠ [backspace])
    (h : utf8Length g < 256) : (t.type? g).bind (·.type? [backspace]) = some t := by
  have hd := dropBytes?_utf8Length g.reverse t.kept
  rw [utf8Length_reverse] at hd
  simp [Typed.type?, hg, Nat.mod_eq_of_lt h, hd]

end TaggedHeap
