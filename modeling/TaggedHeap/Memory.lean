import TaggedHeap.Fault
import TaggedHeap.Word

/-!
# Memory

Memory is a list of chunks, each an array of words. Chunks are added at the end, zeroed, and never
removed or resized.

Where a chunk lies is up to the host, which is held to nothing but that a chunk is aligned to double
words and apart from the others. Here chunks lie one behind the other from a fixed address on, so an
address inside of memory is the same thing as a place, a chunk and a position in it. Proofs make use
of this order and no result depends on it: results speak of blocks that are aligned, apart and in one
chunk, and of the words in them, and these are the same wherever the host puts its chunks.
-/

namespace TaggedHeap

/-- A position in memory: a chunk and the number of a word in it. -/
structure Place where
  chunk : Nat
  word : Nat
deriving DecidableEq, Repr

structure Memory where
  chunks : List (Array Word) := []
deriving DecidableEq, Repr, Inhabited

namespace Memory

/-- Where the first chunk starts. It is high and aligned to double words, so the small numbers that
programs compute with are never mistaken for places. -/
def origin : Nat := 0x7a3c5e0000000000

/-- The words of chunks, taken together. -/
def wordsIn : List (Array Word) → Nat
  | [] => 0
  | c :: cs => c.size + wordsIn cs

def extent (m : Memory) : Nat := wordsIn m.chunks

/-- The place of the byte that lies `offset` bytes behind the start of the first of the chunks, which
has the number `first`. -/
def placeIn (first offset : Nat) : List (Array Word) → Option Place
  | [] => none
  | c :: cs =>
    if offset < wordSize * c.size then some ⟨first, offset / wordSize⟩
    else placeIn (first + 1) (offset - wordSize * c.size) cs

/-- The place of the word that the byte at an address belongs to. -/
def locate? (m : Memory) (address : Nat) : Option Place :=
  if address < origin then none else placeIn 0 (address - origin) m.chunks

def address (m : Memory) (p : Place) : Nat :=
  origin + wordSize * (wordsIn (m.chunks.take p.chunk) + p.word)

def get? (m : Memory) (p : Place) : Option Word :=
  m.chunks[p.chunk]?.bind (·[p.word]?)

def set (m : Memory) (p : Place) (w : Word) : Memory :=
  { chunks := m.chunks.modify p.chunk fun c => c.setIfInBounds p.word w }

/-- The place that a word-sized access at an address goes to. -/
def target (m : Memory) (a : Nat) : Except Fault Place :=
  if a % wordSize = 0 then
    match m.locate? a with
    | some p => .ok p
    | none => .error (.stray a)
  else .error (.stray a)

def read (m : Memory) (a : Nat) : Except Fault Word :=
  match m.target a with
  | .ok p =>
    match m.get? p with
    | some w => .ok w
    | none => .error (.stray a)
  | .error e => .error e

def write (m : Memory) (a : Nat) (w : Word) : Except Fault Memory :=
  match m.target a with
  | .ok p => .ok (m.set p w)
  | .error e => .error e

def readMany (m : Memory) (a : Nat) : Nat → Except Fault (List Word)
  | 0 => .ok []
  | n + 1 => do
    let w ← m.read a
    let ws ← m.readMany (a + wordSize) n
    return w :: ws

def writeMany (m : Memory) (a : Nat) : List Word → Except Fault Memory
  | [] => .ok m
  | w :: ws => do (← m.write a w).writeMany (a + wordSize) ws

/-- The words from an address to the end of its chunk. -/
def readRest (m : Memory) (a : Nat) : Except Fault (List Word) := do
  let p ← m.target a
  return ((m.chunks[p.chunk]?).getD #[]).toList.drop p.word

/-- Room for one more chunk below the end of the address space. -/
def hasRoom (m : Memory) (words : Nat) : Bool :=
  origin + wordSize * (m.extent + words) ≤ wordLimit

def grow (m : Memory) (words : Nat) : Memory :=
  { chunks := m.chunks ++ [Array.replicate words Word.zero] }

/-- The name of an address inside of memory: its place, and the bytes it lies behind it. -/
def name? (m : Memory) (a : Nat) : Option String :=
  (m.locate? a).map fun p =>
    "@" ++ Numeral.decimal p.chunk ++ "." ++ Numeral.decimal p.word ++
      (if a % wordSize = 0 then "" else "+" ++ Numeral.decimal (a % wordSize))

/-- An address as it is shown: its name if it has one. -/
def showAddress (m : Memory) (a : Nat) : String := (m.name? a).getD (Numeral.hex a)

/-- A word as it is shown: pointers into memory by the name of what they point to. -/
def showWord (m : Memory) (w : Word) : String :=
  match w.kind with
  | .pointer => m.showAddress w.toNat
  | .dwordPointer =>
    match m.name? w.dwordAddress with
    | some name => "dword" ++ name
    | none => Numeral.hex w.toNat
  | _ => Numeral.hex w.toNat

end Memory

end TaggedHeap
