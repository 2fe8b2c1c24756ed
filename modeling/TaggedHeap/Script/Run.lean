import TaggedHeap.Script

/-!
# Running scripts

Operands are found before anything is done with them: first the object, which has to be a pointer,
then the word to be written, then the slot. A step that fails answers its fault and names no
register, and the script goes on with the heap that the fault left.
-/

namespace TaggedHeap.Script

/-- The words that the registers hold; one that was never written holds zero. -/
abbrev Registers := List (String × Word)

open Heap

def Operand.eval (regs : Registers) : Operand → HeapM Word
  | .literal w => return w
  | .register name => return (regs.lookup name).getD .zero
  | .unboxed n => return .unboxed n
  | .unboxedSigned n => return .unboxedSigned n
  | .root i => Heap.root i
  | .header uid nfields => lift (headerWord uid nfields)

def Operand.object (regs : Registers) (o : Operand) : HeapM HeapObject := do
  lift (HeapObject.ofWord (← o.eval regs))

def Operand.pair (regs : Registers) (o : Operand) : HeapM Pair := do
  lift (Pair.ofWord (← o.eval regs))

/-- The closure that an operand points to. -/
def Operand.closure (regs : Registers) (o : Operand) : HeapM Closure := do
  let o ← o.object regs
  reading (Closure.ofObject o)

/-- Writes the words of the operands to an address and behind it. -/
def fillBlock (regs : Registers) (address : Nat) : List Operand → HeapM Unit
  | [] => return
  | o :: os => do
    let w ← o.eval regs
    writing fun m => m.write address w
    fillBlock regs (address + wordSize) os

def Source.eval (regs : Registers) : Source → HeapM Word
  | .operand w => w.eval regs
  | .constructor uid nfields => do lift (← HeapObject.allocate uid nfields).toWord
  | .nullary uid => lift (TaggedHeap.nullary uid)
  | .pair => do lift (← Pair.allocate).toWord
  | .dword value => value.allocate
  | .closure code descriptor captures => do
    lift (← Closure.allocate code descriptor captures).object.toWord
  | .cstring bytes => do lift (← CString.allocate bytes).object.toWord
  | .words n contents => do
    let address ← Heap.allocate (.words n)
    fillBlock regs address contents
    lift (Word.pointerTo address)
  | .dwords n => do lift (Word.dwordPointerTo (← Heap.allocate (.dwords n)))
  | .root i => Heap.root i
  | .slot object n => do
    let o ← object.object regs
    reading (o.read n)
  | .argument object n => do
    let o ← object.object regs
    reading (o.argument n)
  | .capture object n => do
    let c ← object.closure regs
    reading (c.capture n)

def Query.eval (o : HeapObject) : Query → HeapM Answer
  | .header => return .header (← reading o.header)
  | .uid => return .count (← reading o.header).uid
  | .fieldCount => return .count (← reading o.header).nfields
  | .slotCount => return .count (← reading o.slotCount)
  | .layout => return .layout (← reading o.layout)
  | .references => do
    let l ← reading o.layout
    return .range l.referencesStart l.referencesEnd
  | .marked => return .flag (← reading o.isMarked)
  | .pointer => return .word (← lift o.toWord)
  | .debug => return .object o
  | .arguments => return .words (← reading o.arguments)
  | .uncheckedUid => return .count (← reading o.uncheckedHeader).uid
  | .uncheckedFieldCount => return .count (← reading o.uncheckedHeader).nfields
  | .asClosure => return .closure (← reading (Closure.ofObject o))
  | .asCString => return .cstring (← reading (CString.ofObject o))
  | .code => do
    let c ← reading (Closure.ofObject o)
    return .address (← reading c.code).toNat
  | .descriptor => do
    let c ← reading (Closure.ofObject o)
    return .number (← reading c.descriptor).toNat
  | .captureCount => do
    let c ← reading (Closure.ofObject o)
    return .count (← reading c.captureCount)
  | .capacity => do
    let s ← reading (CString.ofObject o)
    return .count (← reading s.capacity)
  | .bytes => do
    let s ← reading (CString.ofObject o)
    return .bytes (← reading s.bytes)

/-- Carries out a change. The object is checked first, then the word is found, then the slot. -/
def Change.run (regs : Registers) (o : HeapObject) : Change → HeapM Unit
  | .mark => writing o.mark
  | .unmark => writing o.unmark
  | .slot n w => do
    let w ← w.eval regs
    writing (o.write n w)
  | .argument n w => do
    let w ← w.eval regs
    writing (o.setArgument n w)
  | .capture n w => do
    let c ← reading (Closure.ofObject o)
    let w ← w.eval regs
    writing (c.setCapture n w)

/-- The words of a chunk from one position up to another. -/
def peek (m : Memory) (chunk start stop : Nat) : List Word :=
  ((m.chunks[chunk]?).getD #[]).toList.take stop |>.drop start

def Step.run (regs : Registers) : Step → HeapM Answer
  | .obtain _ source => return .word (← source.eval regs)
  | .pushRoot w => do
    let w ← w.eval regs
    let roots := (← get).roots
    setRoots (roots ++ [w])
    return .rootIndex roots.length
  | .setRoot i w => do
    let w ← w.eval regs
    setRoots (← lift ((← get).roots.write i w))
    return .done
  | .truncateRoots size => do
    setRoots ((← get).roots.take size)
    return .flag (← get).roots.isEmpty
  | .fillRoots w => do
    let w ← w.eval regs
    setRoots ((← get).roots.map fun _ => w)
    return .done
  | .replaceRoots ws => do
    setRoots (← ws.mapM (Operand.eval regs))
    return .flag (← get).roots.isEmpty
  | .listRoots => return .words (← get).roots
  | .listCalls => do
    match (← get).discipline with
    | .recording calls => return .calls (some calls)
    | _ => return .calls none
  | .listChunks => return .counts ((← get).memory.chunks.map Array.size)
  | .peek chunk start stop => return .words (Script.peek (← get).memory chunk start stop)
  | .first pair => do
    let p ← pair.pair regs
    return .word (← reading p.first)
  | .second pair => do
    let p ← pair.pair regs
    return .word (← reading p.second)
  | .setFirst pair w => do
    let p ← pair.pair regs
    let w ← w.eval regs
    writing (p.setFirst w)
    return .word (← lift p.toWord)
  | .setSecond pair w => do
    let p ← pair.pair regs
    let w ← w.eval regs
    writing (p.setSecond w)
    return .word (← lift p.toWord)
  | .readDWord w => do
    let w ← w.eval regs
    return .number (← reading (DWord.read w)).toNat
  | .dwordAddress w => return .address (← w.eval regs).dwordAddress
  | .classify w => return .kind (← w.eval regs).kind
  | .same object other => do
    let o ← object.object regs
    return .flag (o = (← other.object regs))
  | .query object q => do q.eval (← object.object regs)
  | .change object c => do
    c.run regs (← object.object regs)
    return .done

/-- The registers after a step: the one that it names takes the word that it answered. -/
def Step.keep (regs : Registers) : Step → Answer → Registers
  | .obtain (some name) _, .word w => (name, w) :: regs
  | _, _ => regs

/-- A script between two steps. -/
structure Session where
  heap : Heap := {}
  registers : Registers := []
deriving Repr

/-- What a step showed: its answer or fault and the records that it logged. -/
structure Outcome where
  result : Except Fault Answer
  log : List Record

/-- Carries out one step. The log is handed over with its outcome. -/
def Session.step (s : Session) (step : Step) : Outcome × Session :=
  match (step.run s.registers).run s.heap with
  | .ok answer heap =>
    (⟨.ok answer, heap.log⟩, ⟨{ heap with log := [] }, step.keep s.registers answer⟩)
  | .error fault heap => (⟨.error fault, heap.log⟩, ⟨{ heap with log := [] }, s.registers⟩)

/-- Carries out the steps in turn: each outcome with the session that it left. -/
def Session.run (s : Session) : List Step → List (Outcome × Session)
  | [] => []
  | step :: steps =>
    let next := s.step step
    next :: next.2.run steps

end TaggedHeap.Script
