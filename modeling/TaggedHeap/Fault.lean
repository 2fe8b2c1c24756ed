import TaggedHeap.Text.Numeral

/-!
# Faults

Three things can go wrong. A refusal is an answer: the caller asked for something that cannot be
had. A violation is a broken invariant: the words or the code that made them are already wrong, and
the operation stops where it stands. A stray access names memory outside of every chunk, about which
nothing is promised.
-/

namespace TaggedHeap

/-- Answers that a caller can act on. -/
inductive Refusal where
  | uidOutOfRange (uid : Nat)
  | tooManyFields (count : Nat)
  | misalignedDWord (address : Nat)
  | outOfMemory (words : Nat)
  | notAHeader (word : Nat)
  | interiorNul (offset : Nat)
deriving DecidableEq, Repr

/-- Invariants found broken. -/
inductive Violation where
  | uidOutOfRange (uid : Nat)
  | tooManyFields (count : Nat)
  | misalignedPointer (address : Nat)
  | misalignedDWord (address : Nat)
  | notAPointer (word : Nat)
  | notAHeader (address word : Nat)
  | slotOutOfBounds (slot count : Nat)
  | notAClosure (address : Nat)
  | notACString (address : Nat)
  | rootOutOfBounds (size index : Nat)
  | sumOverflow
  | productOverflow
  | divisionByZero
  | capacityOverflow
  /-- The memory for a copy was refused in the middle of a collection. -/
  | collectionRefused (cause : Refusal)
deriving DecidableEq, Repr

inductive Fault where
  | refused (cause : Refusal)
  | violated (cause : Violation)
  | stray (address : Nat)
  /-- The chunks no longer fit the address space. -/
  | exhausted
deriving DecidableEq, Repr

/-- One past the largest number a machine word holds. -/
abbrev wordLimit : Nat := 0x10000000000000000

/-- The uids that a header can hold are those below this one. -/
abbrev maxUids : Nat := 0x100000

abbrev maxFields : Nat := 255

abbrev wordSize : Nat := 8

/-- Bytes in a double word, and the alignment of its block. -/
abbrev dwordSize : Nat := 2 * wordSize

open Numeral

def Refusal.message : Refusal → String
  | .uidOutOfRange uid =>
    "uid " ++ decimal uid ++ " is out of range, expected less than " ++ decimal maxUids
  | .tooManyFields n => decimal n ++ " fields exceed the limit of " ++ decimal maxFields
  | .misalignedDWord a => "address " ++ hex a ++ " is not aligned to " ++ decimal dwordSize ++ " bytes"
  | .outOfMemory n => "out of memory, requested " ++ decimal n ++ " words"
  | .notAHeader w => "word " ++ hex w ++ " is not a header"
  | .interiorNul i => "string has an interior nul byte at offset " ++ decimal i

/-- The structural form: the name of the refusal with its number. -/
def Refusal.debug : Refusal → String
  | .uidOutOfRange uid => "UidOutOfRange(" ++ decimal uid ++ ")"
  | .tooManyFields n => "TooManyFields(" ++ decimal n ++ ")"
  | .misalignedDWord a => "MisalignedDWord(" ++ decimal a ++ ")"
  | .outOfMemory n => "OutOfMemory(" ++ decimal n ++ ")"
  | .notAHeader w => "NotAHeader(" ++ decimal w ++ ")"
  | .interiorNul i => "InteriorNul(" ++ decimal i ++ ")"

/-- The message of a violation. Addresses and words in it are written by `place`, so a heap can put
its own names for them. -/
def Violation.message (place : Nat → String) : Violation → String
  | .uidOutOfRange uid => "uid " ++ decimal uid ++ " is out of range"
  | .tooManyFields n => decimal n ++ " fields exceed the limit"
  | .misalignedPointer a => "heap pointer " ++ place a ++ " is not word aligned"
  | .misalignedDWord a =>
    "double word pointer " ++ place a ++ " is not aligned to " ++ decimal dwordSize ++ " bytes"
  | .notAPointer w => "Word(" ++ place w ++ ") is not a pointer"
  | .notAHeader a w => "slot 0 of " ++ place a ++ " is not a header: Word(" ++ place w ++ ")"
  | .slotOutOfBounds n count => "slot " ++ decimal n ++ " out of bounds of " ++ decimal count
  | .notAClosure a => "HeapObject(" ++ place a ++ ") is not a closure"
  | .notACString a => "HeapObject(" ++ place a ++ ") is not a string"
  | .rootOutOfBounds size i =>
    "index out of bounds: the len is " ++ decimal size ++ " but the index is " ++ decimal i
  | .sumOverflow => "attempt to add with overflow"
  | .productOverflow => "attempt to multiply with overflow"
  | .divisionByZero => "attempt to divide by zero"
  | .capacityOverflow => "capacity overflow"
  | .collectionRefused cause =>
    "called `Result::unwrap()` on an `Err` value: " ++ cause.debug

def Fault.message (place : Nat → String) : Fault → String
  | .refused cause => cause.message
  | .violated cause => cause.message place
  | .stray a => "nothing is stored at " ++ place a
  | .exhausted => "the address space is exhausted"

/-- An answer of two steps is one of the second from the answer of the first. -/
theorem bind_eq_ok_iff {α β : Type} {x : Except Fault α} {f : α → Except Fault β} {b : β} :
    x >>= f = .ok b ↔ ∃ a, x = .ok a ∧ f a = .ok b := by
  cases x <;> simp [bind, Except.bind]

end TaggedHeap
