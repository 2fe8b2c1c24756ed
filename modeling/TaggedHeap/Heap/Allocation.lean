import TaggedHeap.CString
import TaggedHeap.Closure
import TaggedHeap.DWord
import TaggedHeap.Heap.Collection

/-!
# Allocation

What is to be built is checked before memory is asked for, and written once the memory is there.
Words that are needed for it are taken from the roots at that point, because asking for memory may
have moved what they point to.
-/

namespace TaggedHeap

namespace Heap

/-- What the discipline asks to be done ahead of a request. -/
def prepare (r : Request) : HeapM Unit := do
  let h ← get
  match h.discipline with
  | .plain => return
  | .recording calls =>
    let size ← lift r.size
    setDiscipline (.recording (calls ++ [(size, h.roots.length)]))
  | .moving n =>
    setDiscipline (.moving (n + 1))
    collect

/-- The address of a block as requested. -/
def allocate (r : Request) : HeapM Nat := do
  prepare r
  reserve (← get).roots.length r

/-- Turns fresh memory into an object by writing its header. -/
def place (address : Nat) (h : Header) : HeapM HeapObject := do
  writing fun m => m.write address h.toWord
  return ⟨address⟩

end Heap

open Heap

/-- A constructor whose fields hold what the memory held. -/
def HeapObject.allocate (uid nfields : Nat) : HeapM HeapObject := do
  let h ← lift (Header.ofFields? uid nfields)
  place (← Heap.allocate (.words (nfields + 1))) h

/-- A pair that holds what the memory held. -/
def Pair.allocate : HeapM Pair := return ⟨← Heap.allocate (.words 2)⟩

/-- The pointer to a double word stored out of line. -/
def DWord.allocate (d : DWord) : HeapM Word := do
  let address ← Heap.allocate (.dwords 1)
  writing fun m => m.writeMany address [d.lo, d.hi]
  lift (Word.dwordPointerTo address)

/-- The double word that a word points to. -/
def DWord.read (w : Word) (m : Memory) : Except Fault DWord := do
  let lo ← m.read w.dwordAddress
  let hi ← m.read (w.dwordAddress + wordSize)
  return ⟨lo, hi⟩

/-- Writes the words at positions of the roots into the captures from the `n`-th on. -/
def Closure.fill (c : Closure) (n : Nat) : List Nat → HeapM Unit
  | [] => return
  | i :: positions => do
    let w ← root i
    writing (c.setCapture n w)
    c.fill (n + 1) positions

/-- A closure over the words at positions of the roots. -/
def Closure.allocate (code descriptor : Word) (captures : List Nat) : HeapM Closure := do
  let h ← lift (Header.ofFields? closureUid captures.length)
  let o ← place (← Heap.allocate (.words (1 + closureExtraSlots + captures.length))) h
  writing (o.write 1 code)
  writing (o.write 2 descriptor)
  Closure.fill ⟨o⟩ 0 captures
  return ⟨o⟩

/-- The header of a string of the given bytes, which may not have a zero among them. -/
def CString.headerFor (bytes : List UInt8) : Except Fault Header :=
  match bytes.findIdx? (· == 0) with
  | some i => .error (.refused (.interiorNul i))
  | none => Header.ofFields? cstringUid (wordsFor (bytes.length + 1))

def CString.allocate (bytes : List UInt8) : HeapM CString := do
  let h ← lift (headerFor bytes)
  let o ← place (← Heap.allocate (.words (h.nfields + 1))) h
  writing fun m => m.writeMany (o.slotAddress 1) (pack h.nfields bytes)
  return ⟨o⟩

end TaggedHeap
