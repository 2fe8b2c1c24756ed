import TaggedHeap.Text.Ranges

/-!
# Blanks and tokens

Blanks are the characters with the Unicode property White_Space. Texts are split at characters that
a predicate picks out; a token is a piece between blanks that is not empty.
-/

namespace TaggedHeap

namespace Blank

def ranges : Ranges where
  list := [(0x9, 0xD), (0x20, 0x20), (0x85, 0x85), (0xA0, 0xA0), (0x1680, 0x1680), (0x2000, 0x200A),
    (0x2028, 0x2029), (0x202F, 0x202F), (0x205F, 0x205F), (0x3000, 0x3000)]

end Blank

def isBlank (c : Char) : Bool := Blank.ranges.contains c

/-- The text without the blanks at its two ends. -/
def trim (cs : List Char) : List Char :=
  (((cs.dropWhile isBlank).reverse).dropWhile isBlank).reverse

/-- The pieces between the characters that `p` picks out; one more piece than such characters. -/
def pieces (p : Char → Bool) : List Char → List (List Char)
  | [] => [[]]
  | c :: cs =>
    if p c then [] :: pieces p cs
    else match pieces p cs with
      | [] => [[c]]
      | first :: rest => (c :: first) :: rest

theorem pieces_ne_nil (p : Char → Bool) (cs : List Char) : pieces p cs ≠ [] := by
  cases cs with
  | nil => simp [pieces]
  | cons c cs =>
    unfold pieces
    split
    · simp
    · split <;> simp

/-- Splitting at a character that `p` picks out leaves the pieces on both sides of it. -/
theorem pieces_append_cons {p : Char → Bool} {c : Char} (hc : p c = true) (a b : List Char) :
    pieces p (a ++ c :: b) = pieces p a ++ pieces p b := by
  induction a with
  | nil => simp [pieces, hc]
  | cons d a ih =>
    simp only [List.cons_append, pieces]
    split
    case isTrue => rw [ih]; rfl
    case isFalse =>
      rw [ih]
      cases h : pieces p a with
      | nil => exact absurd h (pieces_ne_nil p a)
      | cons first rest => rfl

/-- No piece holds a character that `p` picks out. -/
theorem eq_false_of_mem_pieces {p : Char → Bool} {cs piece : List Char}
    (h : piece ∈ pieces p cs) : ∀ c ∈ piece, p c = false := by
  induction cs generalizing piece with
  | nil =>
    obtain rfl : piece = [] := by simpa [pieces] using h
    simp
  | cons d cs ih =>
    simp only [pieces] at h
    split at h
    case isTrue =>
      cases h with
      | head => simp
      | tail _ h => exact ih h
    case isFalse hd =>
      cases hp : pieces p cs with
      | nil => exact absurd hp (pieces_ne_nil p cs)
      | cons first rest =>
        rw [hp] at h ih
        cases h with
        | head =>
          intro c hc
          cases hc with
          | head => simpa using hd
          | tail _ hc => exact ih (List.mem_cons_self ..) c hc
        | tail _ h => exact ih (List.mem_cons_of_mem _ h)

/-- The lines of a text, split at line feeds. -/
def lines (cs : List Char) : List (List Char) := pieces (· == '\n') cs

/-- The pieces between blanks that are not empty. -/
def tokens (cs : List Char) : List (List Char) :=
  (pieces isBlank cs).filter (fun t => !t.isEmpty)

end TaggedHeap
