import TaggedHeap.Proofs.Heap.Construction

/-!
# Ledgers

A ledger follows a program through its calls: what it made, from what, and which word it last wrote
to which slot of it. It says what every slot ought to hold without a look at memory.
-/

namespace TaggedHeap

inductive Made where
  | constructor (uid nfields : Nat) (object : HeapObject)
  | closure (code descriptor : Word) (captured : List Word) (closure : Closure)
  | cstring (bytes : List UInt8) (string : CString)
  | pair (pair : Pair)
  | dword (value : DWord) (pointer : Word)

namespace Made

def object? : Made → Option HeapObject
  | .constructor _ _ o => some o
  | .closure _ _ _ c => some c.object
  | .cstring _ s => some s.object
  | _ => none

def closure? : Made → Option Closure
  | .closure _ _ _ c => some c
  | _ => none

def pair? : Made → Option Pair
  | .pair p => some p
  | _ => none

/-- The uid and the field count of its header, if it has one. -/
def shape? : Made → Option (Nat × Nat)
  | .constructor uid nfields _ => some (uid, nfields)
  | .closure _ _ captured _ => some (closureUid, captured.length)
  | .cstring bytes _ => some (cstringUid, CString.wordsFor (bytes.length + 1))
  | _ => none

/-- The words that it was made with, without the header. -/
def contents : Made → List Word
  | .constructor _ nfields _ => List.replicate nfields Word.zero
  | .closure code descriptor captured _ => code :: descriptor :: captured
  | .cstring bytes _ => CString.pack (CString.wordsFor (bytes.length + 1)) bytes
  | .pair _ => [Word.zero, Word.zero]
  | .dword d _ => [d.lo, d.hi]

/-- How many slots it has, the header of an object among them. -/
def slotCount : Made → Nat
  | .pair _ => 2
  | m => m.contents.length + 1

end Made

/-- One call of a program. What was made before is named by its position among all that was made. -/
inductive Call where
  /-- The roots that the calls from here on are made with. -/
  | withRoots (roots : Roots)
  | constructor (uid nfields : Nat)
  | closure (code descriptor : Word) (captures : List Nat)
  | cstring (bytes : List UInt8)
  | pair
  | dword (value : DWord)
  | setSlot (k n : Nat) (w : Word)
  | setArgument (k n : Nat) (w : Word)
  | setCapture (k n : Nat) (w : Word)
  | setFirst (k : Nat) (w : Word)
  | setSecond (k : Nat) (w : Word)
  | mark (k : Nat)
  | unmark (k : Nat)

/-- The words written to slots, the last one first. A slot is named by the position of what it
belongs to and its number in it. -/
abbrev Writes := List ((Nat × Nat) × Word)

/-- The word last written to a slot, or the one that it was made with. -/
def Writes.latest (written : Writes) (k n : Nat) (w : Word) : Word :=
  (written.lookup (k, n)).getD w

structure Ledger where
  heap : Heap
  made : List Made := []
  written : Writes := []

namespace Ledger

open Heap

def object? (l : Ledger) (k : Nat) : Option HeapObject := l.made[k]?.bind Made.object?

def closure? (l : Ledger) (k : Nat) : Option Closure := l.made[k]?.bind Made.closure?

def pair? (l : Ledger) (k : Nat) : Option Pair := l.made[k]?.bind Made.pair?

/-- Enters what the action makes, if it succeeds. -/
def allocate (l : Ledger) (x : HeapM Made) : Ledger :=
  match x.run l.heap with
  | .ok m h => { l with heap := h, made := l.made ++ [m] }
  | .error _ h => { l with heap := h }

/-- Carries out an action that writes to no slot. -/
def act (l : Ledger) (x : HeapM Unit) : Ledger :=
  match x.run l.heap with
  | .ok _ h => { l with heap := h }
  | .error _ h => { l with heap := h }

def slotCount (l : Ledger) (k : Nat) : Nat := l.made[k]?.elim 0 Made.slotCount

/-- Carries out an action that writes the word, and enters it if there is such a slot. -/
def write (l : Ledger) (k n : Nat) (w : Word) (x : HeapM Unit) : Ledger :=
  { l.act x with
    written := if n < l.slotCount k then ((k, n), w) :: l.written else l.written }

/-- The ledger after a call. A call on something that was not made, or was made otherwise, does
nothing. -/
def call (l : Ledger) : Call → Ledger
  | .withRoots r => l.act (setRoots r)
  | .constructor uid nfields =>
    l.allocate (Made.constructor uid nfields <$> HeapObject.allocate uid nfields)
  | .closure code descriptor captures =>
    l.allocate (Made.closure code descriptor (captures.filterMap (l.heap.roots[·]?)) <$>
      Closure.allocate code descriptor captures)
  | .cstring bytes => l.allocate (Made.cstring bytes <$> CString.allocate bytes)
  | .pair => l.allocate (Made.pair <$> Pair.allocate)
  | .dword d => l.allocate (Made.dword d <$> d.allocate)
  | .setSlot k n w =>
    match l.object? k with
    | some o => l.write k n w (writing (o.write n w))
    | none => l
  | .setArgument k n w =>
    match l.object? k with
    | some o => l.write k (n + 1) w (writing (o.setArgument n w))
    | none => l
  | .setCapture k n w =>
    match l.closure? k with
    | some c => l.write k (n + 3) w (writing (c.setCapture n w))
    | none => l
  | .setFirst k w =>
    match l.pair? k with
    | some p => l.write k 0 w (writing (p.setFirst w))
    | none => l
  | .setSecond k w =>
    match l.pair? k with
    | some p => l.write k 1 w (writing (p.setSecond w))
    | none => l
  | .mark k =>
    match l.object? k with
    | some o => l.act (writing o.mark)
    | none => l
  | .unmark k =>
    match l.object? k with
    | some o => l.act (writing o.unmark)
    | none => l

/-- The ledger after the calls, made in turn. -/
def run (l : Ledger) (calls : List Call) : Ledger := calls.foldl call l

/-! ## What a ledger promises -/

/-- The header of the object reads as one with this uid and this field count. -/
def Headed (l : Ledger) (o : HeapObject) (uid nfields : Nat) : Prop :=
  ∃ hd, o.header l.heap.memory = .ok hd ∧ hd.uid = uid ∧ hd.nfields = nfields

/-- The slots behind the header of the object that was made `k`-th read as the words last written to
them. It was made with these words. -/
def Stored (l : Ledger) (k : Nat) (o : HeapObject) (ws : List Word) : Prop :=
  ∀ n w, ws[n]? = some w → o.read (n + 1) l.heap.memory = .ok (l.written.latest k (n + 1) w)

/-- Every slot of what was made `k`-th reads as the word last written to it. -/
def Reads (l : Ledger) (k : Nat) : Made → Prop
  | .constructor uid nfields o =>
    l.Headed o uid nfields ∧ l.Stored k o (List.replicate nfields .zero) ∧
    ∀ n < nfields, o.argument n l.heap.memory = .ok (l.written.latest k (n + 1) .zero)
  | .closure code descriptor captured c =>
    l.Headed c.object closureUid captured.length ∧
    l.Stored k c.object (code :: descriptor :: captured) ∧
    c.code l.heap.memory = .ok (l.written.latest k 1 code) ∧
    c.descriptor l.heap.memory = .ok (l.written.latest k 2 descriptor) ∧
    ∀ n w, captured[n]? = some w →
      c.capture n l.heap.memory = .ok (l.written.latest k (n + 3) w)
  | .cstring bytes s =>
    l.Headed s.object cstringUid (CString.wordsFor (bytes.length + 1)) ∧
    l.Stored k s.object (CString.pack (CString.wordsFor (bytes.length + 1)) bytes) ∧
    ((∀ n, l.written.lookup (k, n) = none) → s.bytes l.heap.memory = .ok bytes)
  | .pair p =>
    p.first l.heap.memory = .ok (l.written.latest k 0 .zero) ∧
    p.second l.heap.memory = .ok (l.written.latest k 1 .zero)
  | .dword d w => DWord.read w l.heap.memory = .ok d

def Intact (l : Ledger) : Prop := ∀ k m, l.made[k]? = some m → l.Reads k m

end Ledger

/-- Constructors do not take the uid of closures, and headers are written by marking alone. -/
def Call.Allowed : Call → Prop
  | .constructor uid _ => uid ≠ closureUid
  | .setSlot _ n _ => 1 ≤ n
  | _ => True

end TaggedHeap
