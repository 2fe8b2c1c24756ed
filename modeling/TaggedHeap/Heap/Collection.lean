import TaggedHeap.Heap
import TaggedHeap.Object

/-!
# Collections

A collection copies every object that a root points to, wipes the old copy, and only then makes the
roots point to the copies. It follows no references out of objects. If it stops midway the roots
still name the old places, those already wiped included.
-/

namespace TaggedHeap.Heap

/-- A collection has no answer to a refusal, so there it is a violation. -/
def fatal : Fault → Fault
  | .refused cause => .violated (.collectionRefused cause)
  | e => e

/-- Moves an object to new memory and answers where it went. The memory is asked for under no roots:
the collector keeps none of its own. -/
def evacuate (o : HeapObject) : HeapM HeapObject := do
  let slots ← reading o.slotCount
  let address ← reserve 0 (.words slots) fatal
  let contents ← reading fun m => m.readMany o.address slots
  writing fun m => m.writeMany address contents
  writing fun m => m.writeMany o.address (List.replicate slots Word.zero)
  return ⟨address⟩

/-- The word with the new place of what it points to, if it is a pointer. -/
def relocate (w : Word) : HeapM Word := do
  if w.kind = .pointer then lift (← evacuate ⟨w.toNat⟩).toWord else return w

/-- Moves what the words point to, in the order of the words. -/
def relocateAll : List Word → HeapM (List Word)
  | [] => return []
  | w :: ws => do
    let moved ← relocate w
    return moved :: (← relocateAll ws)

def collect : HeapM Unit := do
  setRoots (← relocateAll (← get).roots)

end TaggedHeap.Heap
