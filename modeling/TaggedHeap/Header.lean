import TaggedHeap.Word

/-!
# Object headers

A header says which shape an object has, how many fields, and whether a collector has marked it.
It takes up the low 32 bits of a word: tag and mark in the lowest four, the uid in the twenty above
them and the field count in the top eight. The ranges are part of the type, so a header is always
one that a word can hold.
-/

namespace TaggedHeap

/-- The uid of closures. Their code and descriptor are not counted as fields. -/
def closureUid : Nat := 0

/-- The uid of byte strings, whose fields are words of bytes. -/
def cstringUid : Nat := 1

structure Header where
  uid : Nat
  nfields : Nat
  marked : Bool
  uid_lt : uid < maxUids
  nfields_le : nfields ≤ maxFields
deriving DecidableEq, Repr

namespace Header

/-- The lowest bits of the mark, the uid and the field count in a header word. -/
abbrev markUnit : Nat := 0x8

abbrev uidUnit : Nat := 0x10

abbrev nfieldsUnit : Nat := 0x1000000

/-- One past the largest header word. -/
abbrev limit : Nat := 0x100000000

/-- All bits of the mark, the uid and the field count in a header word. -/
def markMask : Nat := markUnit

def uidMask : Nat := (maxUids - 1) * uidUnit

def nfieldsMask : Nat := maxFields * nfieldsUnit

/-- The unmarked header with the given fields, if they are in range; the uid is looked at first. -/
def ofFields? (uid nfields : Nat) : Except Fault Header :=
  if hu : uid < maxUids then
    if hn : nfields ≤ maxFields then .ok ⟨uid, nfields, false, hu, hn⟩
    else .error (.refused (.tooManyFields nfields))
  else .error (.refused (.uidOutOfRange uid))

/-- The same for callers that vouch for the range: being out of it is a violation. -/
def ofFields (uid nfields : Nat) : Except Fault Header :=
  if hu : uid < maxUids then
    if hn : nfields ≤ maxFields then .ok ⟨uid, nfields, false, hu, hn⟩
    else .error (.violated (.tooManyFields nfields))
  else .error (.violated (.uidOutOfRange uid))

/-- The header in the low 32 bits of a word, whatever the tag. -/
def ofLowBits (w : Word) : Header where
  uid := w.toNat / uidUnit % maxUids
  nfields := w.toNat / nfieldsUnit % (maxFields + 1)
  marked := w.toNat / markUnit % 2 == 1
  uid_lt := Nat.mod_lt _ (by decide)
  nfields_le := Nat.le_of_lt_succ (Nat.mod_lt _ (by decide))

/-- The header that a word holds: the tag has to be that of headers and the high half zero. -/
def ofWord? (w : Word) : Option Header :=
  if w.isHeader ∧ w.toNat < limit then some (ofLowBits w) else none

/-- The same with a refusal in place of nothing. -/
def readWord? (w : Word) : Except Fault Header :=
  match ofWord? w with
  | some h => .ok h
  | none => .error (.refused (.notAHeader w.toNat))

def toWord (h : Header) : Word :=
  .ofNat (h.nfields * nfieldsUnit + h.uid * uidUnit + (if h.marked then markUnit else 0) + 6)

theorem toNat_toWord (h : Header) :
    h.toWord.toNat =
      h.nfields * nfieldsUnit + h.uid * uidUnit + (if h.marked then markUnit else 0) + 6 := by
  have hu := h.uid_lt
  have hn := h.nfields_le
  apply Word.toNat_ofNat_of_lt
  simp only [maxUids, maxFields, wordLimit, nfieldsUnit, uidUnit, markUnit] at *
  split <;> omega

theorem ofLowBits_toWord (h : Header) : ofLowBits h.toWord = h := by
  have hu := h.uid_lt
  have hn := h.nfields_le
  rcases h with ⟨uid, nfields, marked, _, _⟩
  simp only [ofLowBits, toNat_toWord, mk.injEq, maxUids, maxFields, nfieldsUnit, uidUnit,
    markUnit] at *
  cases marked <;> simp <;> omega

/-- Every header is read back from its word. -/
theorem ofWord?_toWord (h : Header) : ofWord? h.toWord = some h := by
  have hu := h.uid_lt
  have hn := h.nfields_le
  have ht := h.toNat_toWord
  simp only [maxUids, maxFields, nfieldsUnit, uidUnit, markUnit] at *
  have hb : h.toWord.isHeader ∧ h.toWord.toNat < limit := by
    simp only [Word.isHeader, ht, beq_iff_eq, limit]
    split <;> omega
  rw [ofWord?, if_pos hb, ofLowBits_toWord]

def mark (h : Header) : Header := { h with marked := true }

def unmark (h : Header) : Header := { h with marked := false }

def isClosure (h : Header) : Bool := h.uid == closureUid

def isCString (h : Header) : Bool := h.uid == cstringUid

open Numeral

/-- What the header is of, and how big. -/
def text (h : Header) : String :=
  let shape :=
    if h.isClosure then "closure captures=" ++ decimal h.nfields
    else if h.isCString then "cstring words=" ++ decimal h.nfields
    else "uid=" ++ decimal h.uid ++ " nfields=" ++ decimal h.nfields
  shape ++ (if h.marked then " marked" else "")

def debug (h : Header) : String :=
  "Header \x7b uid: " ++ decimal h.uid ++ ", nfields: " ++ decimal h.nfields ++
    ", marked: " ++ (if h.marked then "true" else "false") ++ " \x7d"

end Header

def headerWord (uid nfields : Nat) : Except Fault Word :=
  Header.toWord <$> Header.ofFields uid nfields

/-- A constructor without fields is its header word; it takes no memory. -/
def nullary (uid : Nat) : Except Fault Word := headerWord uid 0

end TaggedHeap
