import TaggedHeap.Fault

/-!
# Tagged words

The low three bits of a word tell what it is. An odd word is a number, the rest of its bits. Of the
even ones, a multiple of four is a pointer into the heap, and a multiple of eight with two or six
added is a pointer to a double word or the header of an object. Everything here is arithmetic on the
unsigned value of the word, so the tag is a remainder and tagging is an addition.
-/

namespace TaggedHeap

structure Word where
  raw : UInt64
deriving DecidableEq, Hashable, Repr, Inhabited

inductive Kind where
  | pointer
  | unboxed
  | dwordPointer
  | header
deriving DecidableEq, Repr

/-- The classification by the low two bits, which does not tell headers from double words. -/
inductive CoarseKind where
  | pointer
  | unboxed
  | headerOrDWordPointer
deriving DecidableEq, Repr

/-- The classification by the low three bits. Numbers have four patterns, named by the two bits
above the lowest; pointers have two. -/
inductive Tag where
  | pointer0
  | unboxed00
  | dwordPointer
  | unboxed01
  | pointer1
  | unboxed10
  | header
  | unboxed11
deriving DecidableEq, Repr

namespace Kind

/-- All kinds, in the order of their numbers. -/
def all : List Kind := [.pointer, .unboxed, .dwordPointer, .header]

def number : Kind → Nat
  | .pointer => 0
  | .unboxed => 1
  | .dwordPointer => 2
  | .header => 3

def name : Kind → String
  | .pointer => "pointer"
  | .unboxed => "unboxed"
  | .dwordPointer => "dword-pointer"
  | .header => "header"

def coarse : Kind → CoarseKind
  | .pointer => .pointer
  | .unboxed => .unboxed
  | .dwordPointer => .headerOrDWordPointer
  | .header => .headerOrDWordPointer

end Kind

def CoarseKind.number : CoarseKind → Nat
  | .pointer => 0
  | .unboxed => 1
  | .headerOrDWordPointer => 2

namespace Tag

/-- The pattern of the low three bits, as a number. -/
def bits : Tag → Nat
  | .pointer0 => 0
  | .unboxed00 => 1
  | .dwordPointer => 2
  | .unboxed01 => 3
  | .pointer1 => 4
  | .unboxed10 => 5
  | .header => 6
  | .unboxed11 => 7

/-- The tag with the pattern `n % 8`. -/
def ofBits (n : Nat) : Tag :=
  match n % 8 with
  | 0 => .pointer0
  | 1 => .unboxed00
  | 2 => .dwordPointer
  | 3 => .unboxed01
  | 4 => .pointer1
  | 5 => .unboxed10
  | 6 => .header
  | _ => .unboxed11

def kind : Tag → Kind
  | .pointer0 => .pointer
  | .pointer1 => .pointer
  | .header => .header
  | .dwordPointer => .dwordPointer
  | .unboxed00 => .unboxed
  | .unboxed01 => .unboxed
  | .unboxed10 => .unboxed
  | .unboxed11 => .unboxed

end Tag

namespace Word

def toNat (w : Word) : Nat := w.raw.toNat

/-- The word whose unsigned value is `n`, up to multiples of the word limit. -/
def ofNat (n : Nat) : Word := ⟨UInt64.ofNat n⟩

/-- The signed value, in two's complement. -/
def toInt (w : Word) : Int :=
  if 2 * w.toNat < wordLimit then w.toNat else (w.toNat : Int) - wordLimit

def zero : Word := ofNat 0

theorem toNat_lt (w : Word) : w.toNat < wordLimit := w.raw.toNat_lt

@[simp] theorem toNat_ofNat (n : Nat) : (ofNat n).toNat = n % wordLimit := by
  simp [ofNat, toNat, wordLimit]

theorem toNat_ofNat_of_lt {n : Nat} (h : n < wordLimit) : (ofNat n).toNat = n := by
  rw [toNat_ofNat, Nat.mod_eq_of_lt h]

@[simp] theorem ofNat_toNat (w : Word) : ofNat w.toNat = w := by
  simp [ofNat, toNat]

theorem toNat_inj {v w : Word} : v.toNat = w.toNat ↔ v = w := by
  refine ⟨fun h => ?_, fun h => by rw [h]⟩
  rw [← ofNat_toNat v, h, ofNat_toNat]

def kind (w : Word) : Kind :=
  if w.toNat % 2 = 1 then .unboxed
  else if w.toNat % 4 = 0 then .pointer
  else if w.toNat % 8 = 6 then .header
  else .dwordPointer

def coarseKind (w : Word) : CoarseKind :=
  match w.toNat % 4 with
  | 0 => .pointer
  | 2 => .headerOrDWordPointer
  | _ => .unboxed

def tag (w : Word) : Tag := Tag.ofBits w.toNat

def isUnboxed (w : Word) : Bool := w.toNat % 2 == 1

def isPointer (w : Word) : Bool := w.toNat % 4 == 0

def isHeader (w : Word) : Bool := w.toNat % 8 == 6

def isDWordPointer (w : Word) : Bool := w.toNat % 8 == 2

/-! ## Numbers -/

/-- The word that holds `n`. The top bit of a word-sized `n` is lost. -/
def unboxed (n : Nat) : Word := ofNat (2 * n + 1)

/-- The word that holds a signed number, up to its two top bits. -/
def unboxedSigned (n : Int) : Word := ofNat ((2 * n + 1) % wordLimit).toNat

/-- The number that a word holds, whatever its kind. -/
def payload (w : Word) : Nat := w.toNat / 2

/-- The same bits read as a signed number. -/
def signedPayload (w : Word) : Int := w.toInt / 2

/-- The largest number that `unboxed` keeps. -/
def maxUnboxed : Nat := 0x7fffffffffffffff

/-- The numbers that `unboxedSigned` keeps lie between these two. -/
def minUnboxedSigned : Int := -0x4000000000000000

def maxUnboxedSigned : Int := 0x3fffffffffffffff

/-! ## Pointers -/

/-- A pointer is its address, which has to be a multiple of the word size. -/
def pointerTo (address : Nat) : Except Fault Word :=
  if address % wordSize = 0 then .ok (ofNat address)
  else .error (.violated (.misalignedPointer address))

/-- A double word pointer is the address of the block with two added. -/
def taggedDWord (address : Nat) : Word := ofNat (address + 2)

/-- The pointer to the double word at an address; one that is not aligned breaks an invariant. -/
def dwordPointerTo (address : Nat) : Except Fault Word :=
  if address % dwordSize = 0 then .ok (taggedDWord address)
  else .error (.violated (.misalignedDWord address))

/-- The pointer to the double word at an address; one that is not aligned is refused. -/
def dwordPointerTo? (address : Nat) : Except Fault Word :=
  if address % dwordSize = 0 then .ok (taggedDWord address)
  else .error (.refused (.misalignedDWord address))

/-- The address behind a double word pointer. Bit one is flipped, so on a word of another kind it
may be set rather than cleared. -/
def dwordAddress (w : Word) : Nat :=
  if w.toNat / 2 % 2 = 1 then w.toNat - 2 else w.toNat + 2

/-- The lowest so many bytes of a number, the least significant first. -/
def lowBytes (n : Nat) : Nat → List UInt8
  | 0 => []
  | count + 1 => UInt8.ofNat n :: lowBytes (n / 256) count

def bytes (w : Word) : List UInt8 := lowBytes w.toNat wordSize

/-- The word with the given bytes, the least significant first; missing bytes are zero. -/
def ofBytes (bs : List UInt8) : Word :=
  ofNat (bs.foldr (fun b n => b.toNat + 256 * n) 0)

end Word

end TaggedHeap
