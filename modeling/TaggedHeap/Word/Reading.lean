import TaggedHeap.Text.Blank
import TaggedHeap.Text.Numeral
import TaggedHeap.Word

/-!
# Reading words

A written word is a decimal numeral, a hexadecimal one behind `0x` or `0X`, or a binary one behind
`0b`. One plus sign may stand in front of the digits. Blanks around it and underscores anywhere in
it do not count, and its value has to fit a word.
-/

namespace TaggedHeap

/-- Why a text is no word, or no dump of words. -/
inductive ReadError where
  | word (text : List Char)
  | dumpWord (word : List Char) (line : Nat)
deriving DecidableEq, Repr

namespace ReadError

def message : ReadError → String
  | .word t => "invalid word '" ++ String.ofList t ++ "'"
  | .dumpWord t line =>
    "invalid word '" ++ String.ofList t ++ "' on line " ++ Numeral.decimal line

def code : ReadError → String
  | .word _ => "tagword::word"
  | .dumpWord _ _ => "tagword::dump"

/-- Advice on how to write it, where there is any. -/
def help? : ReadError → Option String
  | .word _ =>
    some "words are decimal, or hex with a 0x prefix, or binary with a 0b prefix"
  | .dumpWord _ _ => none

/-- The text that could not be read. -/
def culprit : ReadError → List Char
  | .word t => t
  | .dumpWord t _ => t

end ReadError

namespace Numeral

/-- The digits that the characters stand for, provided there are any and all are digits. -/
def readDigits? (base : Nat) (cs : List Char) : Option (List Nat) :=
  if cs.isEmpty then none else cs.mapM (charDigit? base)

/-- The value of a numeral with an optional plus sign, if it is below the limit. -/
def readBelow? (limit base : Nat) (cs : List Char) : Option Nat :=
  let body := match cs with
    | '+' :: rest => rest
    | _ => cs
  ((readDigits? base body).map (value base)).filter (· < limit)

end Numeral

namespace Word

/-- The value of a text free of blanks and underscores. -/
def readClean? (cs : List Char) : Option Nat :=
  match cs with
  | '0' :: 'x' :: ds => Numeral.readBelow? wordLimit 16 ds
  | '0' :: 'X' :: ds => Numeral.readBelow? wordLimit 16 ds
  | '0' :: 'b' :: ds => Numeral.readBelow? wordLimit 2 ds
  | ds => Numeral.readBelow? wordLimit 10 ds

/-- The word that a text stands for. The error shows the text without the blanks around it. -/
def read (cs : List Char) : Except ReadError Word :=
  let t := trim cs
  match readClean? (t.filter (· != '_')) with
  | some n => .ok (.ofNat n)
  | none => .error (.word t)

end Word

end TaggedHeap
