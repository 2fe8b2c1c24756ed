import TaggedHeap.Heap.Allocation

/-!
# Scripts

A script is a list of steps over one heap and its roots, with registers that hold words between
steps. Some steps make or fetch a word, which a register can be named for; the others change or
inspect something and answer what they found.
-/

namespace TaggedHeap.Script

/-- How a step writes a word. -/
inductive Operand where
  | literal (w : Word)
  | register (name : String)
  | unboxed (n : Nat)
  | unboxedSigned (n : Int)
  | root (i : Nat)
  | header (uid nfields : Nat)
deriving Repr

/-- Where a word comes from that a register can keep. -/
inductive Source where
  | operand (w : Operand)
  | constructor (uid nfields : Nat)
  | nullary (uid : Nat)
  | pair
  | dword (value : DWord)
  | closure (code descriptor : Word) (captures : List Nat)
  | cstring (bytes : List UInt8)
  | words (n : Nat) (contents : List Operand)
  | dwords (n : Nat)
  | root (i : Nat)
  | slot (object : Operand) (n : Nat)
  | argument (object : Operand) (n : Nat)
  | capture (object : Operand) (n : Nat)
deriving Repr

inductive Query where
  | header
  | uid
  | fieldCount
  | slotCount
  | layout
  | references
  | marked
  | pointer
  | debug
  | arguments
  | uncheckedUid
  | uncheckedFieldCount
  | asClosure
  | asCString
  | code
  | descriptor
  | captureCount
  | capacity
  | bytes
deriving DecidableEq, Repr

inductive Change where
  | mark
  | unmark
  | slot (n : Nat) (w : Operand)
  | argument (n : Nat) (w : Operand)
  | capture (n : Nat) (w : Operand)
deriving Repr

inductive Step where
  | obtain (register : Option String) (source : Source)
  | pushRoot (w : Operand)
  | setRoot (i : Nat) (w : Operand)
  | truncateRoots (size : Nat)
  | fillRoots (w : Operand)
  | replaceRoots (ws : List Operand)
  | listRoots
  | listCalls
  | listChunks
  | peek (chunk start stop : Nat)
  | first (pair : Operand)
  | second (pair : Operand)
  | setFirst (pair w : Operand)
  | setSecond (pair w : Operand)
  | readDWord (w : Operand)
  | dwordAddress (w : Operand)
  | classify (w : Operand)
  | same (object other : Operand)
  | query (object : Operand) (q : Query)
  | change (object : Operand) (c : Change)
deriving Repr

inductive Answer where
  | done
  | word (w : Word)
  | words (ws : List Word)
  | address (a : Nat)
  /-- A size, small enough to count with. -/
  | count (n : Nat)
  | counts (ns : List Nat)
  /-- A value that a word or a double word holds. -/
  | number (n : Nat)
  | range (start stop : Nat)
  | flag (b : Bool)
  | rootIndex (i : Nat)
  | kind (k : Kind)
  | header (h : Header)
  | layout (l : Layout)
  | object (o : HeapObject)
  | closure (c : Closure)
  | cstring (s : CString)
  | bytes (bs : List UInt8)
  | calls (entries : Option (List (Nat × Nat)))
deriving Repr

end TaggedHeap.Script
