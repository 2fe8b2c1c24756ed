import TaggedHeap.Layout
import TaggedHeap.Memory

/-!
# Heap objects

An object is known by the address of its header. Its slots are numbered from the header on, which is
slot zero; argument `n` of a constructor is slot `n + 1`. Every access reads the header first and
stays below the slot count that it gives. A pair has no header, so nothing is checked on it.
-/

namespace TaggedHeap

/-- An object with a header. -/
structure HeapObject where
  address : Nat
deriving DecidableEq, Repr

/-- Two words without a header. -/
structure Pair where
  address : Nat
deriving DecidableEq, Repr

namespace HeapObject

def ofWord (w : Word) : Except Fault HeapObject :=
  if w.isPointer then .ok ⟨w.toNat⟩ else .error (.violated (.notAPointer w.toNat))

def toWord (o : HeapObject) : Except Fault Word := Word.pointerTo o.address

def slotAddress (o : HeapObject) (n : Nat) : Nat := o.address + wordSize * n

def header (o : HeapObject) (m : Memory) : Except Fault Header := do
  let w ← m.read o.address
  match Header.ofWord? w with
  | some h => return h
  | none => .error (.violated (.notAHeader o.address w.toNat))

/-- What the low bits of slot zero say if they are taken for a header without a check. -/
def uncheckedHeader (o : HeapObject) (m : Memory) : Except Fault Header :=
  Header.ofLowBits <$> m.read o.address

def layout (o : HeapObject) (m : Memory) : Except Fault Layout := Header.layout <$> o.header m

def slotCount (o : HeapObject) (m : Memory) : Except Fault Nat := Layout.slotCount <$> o.layout m

/-- The address of a slot of the object. -/
def slot (o : HeapObject) (n : Nat) (m : Memory) : Except Fault Nat := do
  let count ← o.slotCount m
  if n < count then return o.slotAddress n
  else .error (.violated (.slotOutOfBounds n count))

def read (o : HeapObject) (n : Nat) (m : Memory) : Except Fault Word := do
  m.read (← o.slot n m)

def write (o : HeapObject) (n : Nat) (w : Word) (m : Memory) : Except Fault Memory := do
  m.write (← o.slot n m) w

def argument (o : HeapObject) (n : Nat) (m : Memory) : Except Fault Word := do
  o.read (← Count.add n 1) m

def setArgument (o : HeapObject) (n : Nat) (w : Word) (m : Memory) : Except Fault Memory := do
  o.write (← Count.add n 1) w m

/-- The words of the slots that the header counts as fields. -/
def arguments (o : HeapObject) (m : Memory) : Except Fault (List Word) := do
  let h ← o.header m
  m.readMany (o.slotAddress 1) h.nfields

def isMarked (o : HeapObject) (m : Memory) : Except Fault Bool := Header.marked <$> o.header m

def mark (o : HeapObject) (m : Memory) : Except Fault Memory := do
  let h ← o.header m
  m.write o.address h.mark.toWord

def unmark (o : HeapObject) (m : Memory) : Except Fault Memory := do
  let h ← o.header m
  m.write o.address h.unmark.toWord

/-- The structural form; the address is written by `place`. -/
def debug (place : Nat → String) (o : HeapObject) : String :=
  "HeapObject(" ++ place o.address ++ ")"

end HeapObject

namespace Pair

def ofWord (w : Word) : Except Fault Pair :=
  if w.isPointer then .ok ⟨w.toNat⟩ else .error (.violated (.notAPointer w.toNat))

def toWord (p : Pair) : Except Fault Word := Word.pointerTo p.address

def first (p : Pair) (m : Memory) : Except Fault Word := m.read p.address

def second (p : Pair) (m : Memory) : Except Fault Word := m.read (p.address + wordSize)

def setFirst (p : Pair) (w : Word) (m : Memory) : Except Fault Memory := m.write p.address w

def setSecond (p : Pair) (w : Word) (m : Memory) : Except Fault Memory :=
  m.write (p.address + wordSize) w

end Pair

end TaggedHeap
