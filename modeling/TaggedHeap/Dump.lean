import TaggedHeap.Word.Decoding
import TaggedHeap.Word.Reading

/-!
# Heap dumps

A dump is a text of words between blanks. A number sign starts a comment that runs to the end of its
line. Reading stops at the first token that is no word and tells its line, counted from one.
-/

namespace TaggedHeap.Dump

/-- What a line holds in front of its comment. -/
def code (line : List Char) : List Char := line.takeWhile (· != '#')

/-- The words of the tokens, all on the line with the given number. -/
def readTokens (line : Nat) : List (List Char) → Except ReadError (List Word)
  | [] => .ok []
  | t :: ts =>
    match Word.read t with
    | .error _ => .error (.dumpWord t line)
    | .ok w =>
      match readTokens line ts with
      | .error e => .error e
      | .ok ws => .ok (w :: ws)

/-- The words of the lines, the first of which has the given number. -/
def readLines (line : Nat) : List (List Char) → Except ReadError (List Word)
  | [] => .ok []
  | l :: ls =>
    match readTokens line (tokens (code l)) with
    | .error e => .error e
    | .ok ws =>
      match readLines (line + 1) ls with
      | .error e => .error e
      | .ok rest => .ok (ws ++ rest)

def read (text : List Char) : Except ReadError (List Word) := readLines 1 (lines text)

def indexWidth : Nat := 6

/-- One word of a decoded dump: its position, its raw bits, its kind and what it decodes to. -/
def line (index : Nat) (w : Word) : String :=
  Column.place { alignment := .right, width := indexWidth } (Numeral.decimal index) ++ "  " ++
    w.rawColumn ++ "  " ++ w.kind.column ++ "  " ++ w.text

/-- The decoded dump, one line for each word, from the given position on. -/
def listingFrom (index : Nat) : List Word → List String
  | [] => []
  | w :: ws => line index w :: listingFrom (index + 1) ws

def listing (ws : List Word) : List String := listingFrom 0 ws

end TaggedHeap.Dump
