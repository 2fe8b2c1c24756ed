import TaggedHeap.Count
import TaggedHeap.Memory
import TaggedHeap.Record

/-!
# Arena

An arena hands out memory by moving a cursor through its last chunk; it never takes any back. A
request that does not fit what is left of the chunk opens another one, which is as large as the
configuration says or as the request needs. What a request leads to is planned before anything is
done, so a request that fails changes nothing.

A chunk that the host has no memory for is answered by `.exhausted`. How much memory the host has,
here all addresses from the first chunk on, decides when this happens and nothing else.
-/

namespace TaggedHeap

structure ArenaConfig where
  /-- The size of a chunk, unless one request needs more. -/
  chunkWords : Nat := 4096
  /-- The most words that may be handed out, padding included. -/
  limit : Option Nat := none
deriving DecidableEq, Repr

def ArenaConfig.debug (c : ArenaConfig) : String :=
  let limit := match c.limit with
    | none => "None"
    | some l => "Some(" ++ Numeral.decimal l ++ ")"
  "ArenaConfig \x7b chunk_words: " ++ Numeral.decimal c.chunkWords ++ ", limit_words: " ++ limit ++
    " \x7d"

/-- What is asked of an allocator: so many words, or so many double words. -/
inductive Request where
  | words (n : Nat)
  | dwords (n : Nat)
deriving DecidableEq, Repr

namespace Request

/-- The request as a number of words. -/
def size : Request → Except Fault Nat
  | .words n => .ok n
  | .dwords n => Count.mul n 2

/-- The words that the start of the block has to be a multiple of. -/
def alignment : Request → Nat
  | .words _ => 1
  | .dwords _ => 2

def isEmpty : Request → Bool
  | .words n => n == 0
  | .dwords n => n == 0

/-- The address given for an empty request. It is aligned and belongs to no chunk. -/
def dangling : Request → Nat
  | .words _ => wordSize
  | .dwords _ => dwordSize

/-- The record of a request made under so many roots. -/
def record (roots : Nat) : Request → Record
  | .words n => .wordsRequested n roots
  | .dwords n => .dwordsRequested n roots

end Request

structure Arena where
  config : ArenaConfig := {}
  memory : Memory := {}
  /-- The first free word of the last chunk. -/
  cursor : Nat := 0
  /-- The words handed out so far, padding included. -/
  allocated : Nat := 0
deriving DecidableEq, Repr

inductive Plan where
  /-- An empty request takes nothing. -/
  | nothing
  /-- The block fits the last chunk. -/
  | inChunk (start size : Nat)
  /-- The block is the first of a new chunk. -/
  | newChunk (capacity size : Nat)
  /-- The block would exceed the limit. -/
  | overLimit (limit size : Nat)
deriving DecidableEq, Repr

namespace Arena

def capacity (a : Arena) : Nat := (a.memory.chunks.getLast?.map Array.size).getD 0

/-- The limit that handing out so many more words would exceed, if any. -/
def exceeded (a : Arena) (padding size : Nat) : Except Fault (Option Nat) :=
  match a.config.limit with
  | none => .ok none
  | some limit => do
    let total ← Count.add (← Count.add a.allocated padding) size
    return if limit < total then some limit else none

/-- The plan for a request that is not empty. -/
def planFor (a : Arena) (size alignment : Nat) : Except Fault Plan := do
  let start ← Count.roundUp a.cursor alignment
  let stop ← Count.add start size
  let fits := decide (stop ≤ a.capacity)
  let padding := if fits then start - a.cursor else 0
  match ← a.exceeded padding size with
  | some limit => return .overLimit limit size
  | none =>
    if fits then return .inChunk start size
    else return .newChunk (← Count.roundUp (max size a.config.chunkWords) 2) size

def plan (a : Arena) (r : Request) : Except Fault Plan :=
  if r.isEmpty then .ok .nothing
  else do a.planFor (← r.size) r.alignment

/-- The bytes of a chunk have to stay below this number. -/
def chunkByteLimit : Nat := 0x8000000000000000

def addressInLast (a : Arena) (word : Nat) : Nat :=
  a.memory.address ⟨a.memory.chunks.length - 1, word⟩

/-- The arena with a new, empty last chunk. -/
def addChunk (a : Arena) (capacity : Nat) : Except Fault Arena :=
  if chunkByteLimit ≤ wordSize * capacity then .error (.violated .capacityOverflow)
  else if a.memory.hasRoom capacity then
    .ok { a with memory := a.memory.grow capacity, cursor := 0 }
  else .error .exhausted

/-- The arena with the cursor behind a block of its last chunk, and the address of the block. -/
def take (a : Arena) (start size : Nat) : Nat × Arena :=
  (a.addressInLast start,
   { a with cursor := start + size, allocated := a.allocated + (start - a.cursor) + size })

/-- The address of a block as requested, and the arena without it. -/
def reserve (a : Arena) (r : Request) : Except Fault (Nat × Arena) := do
  match ← a.plan r with
  | .nothing => return (r.dangling, a)
  | .inChunk start size => return a.take start size
  | .newChunk capacity size => return (← a.addChunk capacity).take 0 size
  | .overLimit _ size => .error (.refused (.outOfMemory size))

/-- What is logged when a request is made under so many roots. -/
def records (a : Arena) (roots : Nat) (r : Request) : List Record :=
  r.record roots ::
    match a.plan r with
    | .ok (.newChunk capacity _) => [.chunkAdded capacity]
    | .ok (.overLimit limit size) => [.limitReached size a.allocated limit]
    | _ => []

end Arena

end TaggedHeap
