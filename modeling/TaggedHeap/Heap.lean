import TaggedHeap.Arena
import TaggedHeap.Roots

/-!
# The heap

A heap is an arena, the discipline under which memory is asked of it, the roots of the program and
the log. An action on a heap gives an answer or a fault, and leaves a heap in both cases: what was
done before a fault stays done.
-/

namespace TaggedHeap

/-- How memory is asked of the arena. -/
inductive Discipline where
  /-- The arena is asked at once. -/
  | plain
  /-- Each request is noted first: its words and the number of roots at that moment. -/
  | recording (calls : List (Nat × Nat))
  /-- Each request is preceded by a collection that moves all that the roots point to. -/
  | moving (collections : Nat)
deriving DecidableEq, Repr

structure Heap where
  arena : Arena := {}
  discipline : Discipline := .plain
  roots : Roots := []
  log : List Record := []
deriving DecidableEq, Repr

abbrev HeapM := EStateM Fault Heap

namespace Heap

/-- An answer or a fault that does not depend on the heap. -/
def lift {α : Type} : Except Fault α → HeapM α
  | .ok a => pure a
  | .error e => throw e

def memory (h : Heap) : Memory := h.arena.memory

def reading {α : Type} (f : Memory → Except Fault α) : HeapM α := do
  lift (f (← get).memory)

/-- Changes memory; a fault leaves it as it was. -/
def writing (f : Memory → Except Fault Memory) : HeapM Unit := do
  let m ← lift (f (← get).memory)
  modify fun h => { h with arena := { h.arena with memory := m } }

def root (i : Nat) : HeapM Word := do
  lift ((← get).roots.read i)

def setRoots (r : Roots) : HeapM Unit := modify fun h => { h with roots := r }

def setDiscipline (d : Discipline) : HeapM Unit := modify fun h => { h with discipline := d }

/-- Takes memory from the arena for a request made under so many roots. A fault is passed on as
`report` makes it. -/
def reserve (roots : Nat) (r : Request) (report : Fault → Fault := id) : HeapM Nat := do
  let arena := (← get).arena
  modify fun h => { h with log := h.log ++ arena.records roots r }
  let (address, arena) ← lift ((arena.reserve r).mapError report)
  modify fun h => { h with arena }
  return address

/-! ## What actions do to a heap -/

theorem run_bind {α β : Type} (x : HeapM α) (f : α → HeapM β) (h : Heap) :
    (x >>= f).run h =
      match x.run h with
      | .ok a h' => (f a).run h'
      | .error e h' => .error e h' := by
  simp only [EStateM.run, bind, EStateM.bind]
  cases x h <;> rfl

theorem run_lift {α : Type} (x : Except Fault α) (h : Heap) :
    (lift x).run h =
      match x with
      | .ok a => .ok a h
      | .error e => .error e h := by
  cases x <;> rfl

theorem run_reading {α : Type} (f : Memory → Except Fault α) (h : Heap) :
    (reading f).run h =
      match f h.memory with
      | .ok a => .ok a h
      | .error e => .error e h :=
  run_lift (f h.memory) h

theorem run_writing (f : Memory → Except Fault Memory) (h : Heap) :
    (writing f).run h =
      match f h.memory with
      | .ok m => .ok () { h with arena := { h.arena with memory := m } }
      | .error e => .error e h := by
  rw [writing, run_bind]
  change (match (lift (f h.memory) >>= _).run h with | r => r) = _
  rw [run_bind, run_lift]
  cases f h.memory <;> rfl

theorem run_root (i : Nat) (h : Heap) :
    (root i).run h =
      match h.roots.read i with
      | .ok w => .ok w h
      | .error e => .error e h := by
  rw [root, run_bind]
  change (lift (h.roots.read i)).run h = _
  rw [run_lift]
  cases h.roots.read i <;> rfl

/-- A request that fails leaves its records in the log and nothing else. -/
theorem run_reserve (roots : Nat) (r : Request) (report : Fault → Fault) (h : Heap) :
    (reserve roots r report).run h =
      match h.arena.reserve r with
      | .ok (address, arena) =>
        .ok address { h with arena, log := h.log ++ h.arena.records roots r }
      | .error e => .error (report e) { h with log := h.log ++ h.arena.records roots r } := by
  rw [reserve, run_bind]
  change (modify _ >>= _ : HeapM Nat).run h = _
  rw [run_bind]
  change (lift ((h.arena.reserve r).mapError report) >>= _ : HeapM Nat).run _ = _
  rw [run_bind, run_lift]
  cases h.arena.reserve r <;> rfl

end Heap

end TaggedHeap
