import TaggedHeap.Layout
import TaggedHeap.Text.Column

/-!
# Decoded words

Decoding takes a word apart without looking at memory: every word is exactly one of a pointer, a
number, a double word pointer, a header, or a word with the tag of a header that no header has. The
text of a word is the text of what it decodes to.
-/

namespace TaggedHeap

inductive Decoded where
  | pointer (address : Nat)
  | unboxed (n : Nat)
  | dwordPointer (address : Nat)
  | header (h : Header)
  /-- The tag of a header below bits that no header sets. -/
  | corrupt (w : Word)
deriving DecidableEq, Repr

namespace Word

def decode (w : Word) : Decoded :=
  match w.kind with
  | .pointer => .pointer w.toNat
  | .unboxed => .unboxed w.payload
  | .dwordPointer => .dwordPointer w.dwordAddress
  | .header =>
    match Header.ofWord? w with
    | some h => .header h
    | none => .corrupt w

end Word

open Numeral

/-- The structural form of a raw word. -/
def Word.debug (w : Word) : String := "Word(" ++ hex w.toNat ++ ")"

namespace Decoded

def encode : Decoded → Word
  | .pointer a => .ofNat a
  | .unboxed n => .unboxed n
  | .dwordPointer a => .taggedDWord a
  | .header h => h.toWord
  | .corrupt w => w

def text : Decoded → String
  | .pointer a => "#<ptr " ++ hex a ++ ">"
  | .unboxed n => decimal n
  | .dwordPointer a => "#<dword " ++ hex a ++ ">"
  | .header h => "#<" ++ h.text ++ ">"
  | .corrupt w => "#<corrupt header " ++ hex w.toNat ++ ">"

/-- The structural form; addresses are decimal in it. -/
def debug : Decoded → String
  | .pointer a => "Pointer(" ++ decimal a ++ ")"
  | .unboxed n => "Unboxed(" ++ decimal n ++ ")"
  | .dwordPointer a => "DWordPointer(" ++ decimal a ++ ")"
  | .header h => "Header(" ++ h.debug ++ ")"
  | .corrupt w => "Corrupt(" ++ w.debug ++ ")"

end Decoded

def kindWidth : Nat := 13

/-- The name of a kind as it stands in its column. -/
def Kind.column (k : Kind) : String := Column.place { width := kindWidth } k.name

def Tag.text (t : Tag) : String := zeroFilled 2 3 t.bits

namespace Word

def text (w : Word) : String := w.decode.text

/-- The raw value with all its sixteen digits. -/
def rawColumn (w : Word) : String := "0x" ++ zeroFilled 16 16 w.toNat

/-- One line on a word: its raw bits, both classifications, and what it decodes to. -/
def describe (w : Word) : String :=
  w.rawColumn ++ "  " ++ w.kind.column ++ "  kind3=" ++ w.tag.text ++ "  " ++ w.text

end Word

end TaggedHeap
