import TaggedHeap.Count
import TaggedHeap.Header

/-!
# Object layouts

The layout of an object follows from its header. Slot zero is the header; a closure has its code and
its descriptor in the next two slots and a string has bytes in all of them, neither of which a
collector may follow.
-/

namespace TaggedHeap

inductive Layout where
  /-- All slots after the header are references. -/
  | constructor (nfields : Nat)
  /-- Code and descriptor, then the captured references. -/
  | closure (ncaptures : Nat)
  /-- Words of bytes. -/
  | cstring (nwords : Nat)
deriving DecidableEq, Repr

/-- Slots between the header and the captures of a closure. -/
def closureExtraSlots : Nat := 2

namespace Layout

def ofHeader (h : Header) : Layout :=
  if h.isClosure then .closure h.nfields
  else if h.isCString then .cstring h.nfields
  else .constructor h.nfields

/-- The slots that the object takes up, its header included. -/
def slotCount : Layout → Nat
  | .constructor n => 1 + n
  | .closure n => 1 + closureExtraSlots + n
  | .cstring n => 1 + n

/-- The first of the slots that hold references. -/
def referencesStart : Layout → Nat
  | .constructor _ => 1
  | .closure _ => 1 + closureExtraSlots
  | .cstring _ => 1

/-- One past the last of the slots that hold references. -/
def referencesEnd : Layout → Nat
  | .constructor n => 1 + n
  | .closure n => 1 + closureExtraSlots + n
  | .cstring _ => 1

theorem referencesEnd_le_slotCount (l : Layout) : l.referencesEnd ≤ l.slotCount := by
  cases l <;> simp [referencesEnd, slotCount]

/-- The layout, provided its slots can be counted. Every layout that comes from a header can. -/
def counted (l : Layout) : Except Fault Layout :=
  if l.slotCount < wordLimit then .ok l else .error (.violated .sumOverflow)

open Numeral

def text (l : Layout) : String :=
  decimal l.slotCount ++ " slots, references in " ++ decimal l.referencesStart ++ ".." ++
    decimal l.referencesEnd

def debug : Layout → String
  | .constructor n => "Constructor \x7b nfields: " ++ decimal n ++ " \x7d"
  | .closure n => "Closure \x7b ncaptures: " ++ decimal n ++ " \x7d"
  | .cstring n => "CString \x7b nwords: " ++ decimal n ++ " \x7d"

end Layout

def Header.layout (h : Header) : Layout := .ofHeader h

end TaggedHeap
