import TaggedHeap.Record
import TaggedHeap.Word.Decoding

/-!
# Summaries of dumps

A summary counts the words of a dump: by kind, and the headers among them by uid. What was never seen
has no count. Counts are kept in no particular order and sorted when they are listed.
-/

namespace TaggedHeap

/-- Things and how often they were counted, in any order. -/
abbrev Tally (κ : Type) := List (κ × Nat)

namespace Tally

variable {κ : Type}

/-- Counts one more thing. -/
def add [DecidableEq κ] (k : κ) : Tally κ → Tally κ
  | [] => [(k, 1)]
  | (j, n) :: rest => if j = k then (j, n + 1) :: rest else (j, n) :: add k rest

def count [DecidableEq κ] (t : Tally κ) (k : κ) : Nat := (t.lookup k).getD 0

def total (t : Tally κ) : Nat := t.foldr (fun e n => e.2 + n) 0

/-- The order in which entries are sorted: by the rank of what they count, then by the count. -/
def precedes (rank : κ → Nat) (a b : κ × Nat) : Bool :=
  rank a.1 < rank b.1 ∨ rank a.1 = rank b.1 ∧ a.2 ≤ b.2

def sorted (rank : κ → Nat) (t : Tally κ) : Tally κ := t.mergeSort (precedes rank)

end Tally

/-- What there is to say on a dump as a whole. -/
structure Summary where
  words : Nat := 0
  kindTally : Tally Kind := []
  uidTally : Tally Nat := []
  corrupt : Nat := 0
deriving DecidableEq, Repr

namespace Summary

def add (s : Summary) (w : Word) : Summary :=
  let s := { s with words := s.words + 1, kindTally := s.kindTally.add w.kind }
  match w.decode with
  | .header h => { s with uidTally := s.uidTally.add h.uid }
  | .corrupt _ => { s with corrupt := s.corrupt + 1 }
  | _ => s

def ofList (ws : List Word) : Summary := ws.foldl add {}

/-- The kinds that were seen with their counts, in the order of kinds. -/
def kinds (s : Summary) : Tally Kind := s.kindTally.sorted Kind.number

/-- The uids that were seen with their counts, the least first. -/
def uids (s : Summary) : Tally Nat := s.uidTally.sorted id

/-- What is logged when the summary is done. -/
def log (s : Summary) : List Record := [.summarized s.words]

open Numeral

def uidWidth : Nat := 9

/-- The lines of the summary: the size, the kinds, the corrupt headers if there are any, the uids. -/
def listing (s : Summary) : List String :=
  [decimal s.words ++ " words"] ++
  s.kinds.map (fun e => "  " ++ e.1.column ++ "  " ++ decimal e.2) ++
  (if 0 < s.corrupt then
    ["  " ++ Column.place { width := kindWidth } "corrupt" ++ "  " ++ decimal s.corrupt]
   else []) ++
  s.uids.map (fun e =>
    "  uid " ++ Column.place { width := uidWidth } (decimal e.1) ++ "  " ++ decimal e.2)

/-- The lines of the summary, each ended by a line feed. -/
def text (s : Summary) : String := String.join (s.listing.map (· ++ "\n"))

end Summary

end TaggedHeap
