import TaggedHeap.Fault
import TaggedHeap.Word

/-!
# Roots

The words that a program still needs after an allocation. A position once given stays the position of
its word until the roots are cut below it; a collection that moves an object rewrites its word.
-/

namespace TaggedHeap

abbrev Roots := List Word

namespace Roots

def read (r : Roots) (i : Nat) : Except Fault Word :=
  match r[i]? with
  | some w => .ok w
  | none => .error (.violated (.rootOutOfBounds r.length i))

def write (r : Roots) (i : Nat) (w : Word) : Except Fault Roots :=
  if i < r.length then .ok (r.set i w)
  else .error (.violated (.rootOutOfBounds r.length i))

end Roots

end TaggedHeap
