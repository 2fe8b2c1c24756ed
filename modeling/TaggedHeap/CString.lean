import TaggedHeap.Object

/-!
# Byte strings

A string is an object with the uid one whose slots hold its bytes, a zero byte behind them, and zeros
up to a whole word. Its end is found by looking for the zero byte, not by its field count, and the
search goes on through memory if the object has none.
-/

namespace TaggedHeap

structure CString where
  object : HeapObject
deriving DecidableEq, Repr

namespace CString

/-- The words that so many bytes take up. -/
def wordsFor (bytes : Nat) : Nat := (bytes + (wordSize - 1)) / wordSize

/-- The bytes in words, eight to a word, the last one filled up with zeros. -/
def pack (words : Nat) (bs : List UInt8) : List Word :=
  (List.range words).map fun i => Word.ofBytes ((bs.drop (wordSize * i)).take wordSize)

/-- The object as a string, if its header says that it is one. -/
def ofObject (o : HeapObject) (m : Memory) : Except Fault CString := do
  let h ← o.header m
  if h.isCString then return ⟨o⟩ else .error (.violated (.notACString o.address))

/-- The bytes that its fields have room for. -/
def capacity (s : CString) (m : Memory) : Except Fault Nat := do
  let h ← s.object.header m
  return h.nfields * wordSize

/-- The bytes in front of the first zero byte. -/
def bytes (s : CString) (m : Memory) : Except Fault (List UInt8) := do
  let start := s.object.slotAddress 1
  let rest := (← m.readRest start).flatMap Word.bytes
  if rest.contains 0 then return rest.takeWhile (· != 0)
  else .error (.stray (start + rest.length))

def debug (place : Nat → String) (s : CString) : String :=
  "HeapCString(" ++ s.object.debug place ++ ")"

end CString

end TaggedHeap
