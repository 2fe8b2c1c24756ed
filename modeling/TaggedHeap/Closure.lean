import TaggedHeap.Object

/-!
# Closures

A closure is an object with the uid zero. Its code address and the descriptor of its environment
stand in the two slots behind the header; the captured words follow.
-/

namespace TaggedHeap

structure Closure where
  object : HeapObject
deriving DecidableEq, Repr

namespace Closure

/-- The object as a closure, if its header says that it is one. -/
def ofObject (o : HeapObject) (m : Memory) : Except Fault Closure := do
  let h ← o.header m
  if h.isClosure then return ⟨o⟩ else .error (.violated (.notAClosure o.address))

def captureSlot (n : Nat) : Except Fault Nat := Count.add (1 + closureExtraSlots) n

def code (c : Closure) (m : Memory) : Except Fault Word := c.object.read 1 m

def descriptor (c : Closure) (m : Memory) : Except Fault Word := c.object.read 2 m

def captureCount (c : Closure) (m : Memory) : Except Fault Nat :=
  Header.nfields <$> c.object.header m

def capture (c : Closure) (n : Nat) (m : Memory) : Except Fault Word := do
  c.object.read (← captureSlot n) m

def setCapture (c : Closure) (n : Nat) (w : Word) (m : Memory) : Except Fault Memory := do
  c.object.write (← captureSlot n) w m

def debug (place : Nat → String) (c : Closure) : String :=
  "Closure(" ++ c.object.debug place ++ ")"

end Closure

end TaggedHeap
