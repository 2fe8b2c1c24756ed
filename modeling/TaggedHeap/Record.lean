import TaggedHeap.Text.Numeral

/-!
# Log records

What is worth noting while memory is handed out and dumps are summarised. A record holds the figures;
its level and its text follow from which one it is.
-/

namespace TaggedHeap

inductive Record where
  | wordsRequested (count roots : Nat)
  | dwordsRequested (count roots : Nat)
  | chunkAdded (words : Nat)
  | limitReached (requested inUse limit : Nat)
  | summarized (words : Nat)
deriving DecidableEq, Repr

namespace Record

open Numeral

def level : Record → String
  | .wordsRequested _ _ => "TRACE"
  | .dwordsRequested _ _ => "TRACE"
  | .chunkAdded _ => "DEBUG"
  | .limitReached _ _ _ => "WARN"
  | .summarized _ => "DEBUG"

def message : Record → String
  | .wordsRequested n roots =>
    "arena: " ++ decimal n ++ " words, " ++ decimal roots ++ " roots"
  | .dwordsRequested n roots =>
    "arena: " ++ decimal n ++ " dwords, " ++ decimal roots ++ " roots"
  | .chunkAdded n => "arena: new chunk of " ++ decimal n ++ " words"
  | .limitReached n used limit =>
    "arena exhausted: " ++ decimal n ++ " words requested, " ++ decimal used ++ " of " ++
      decimal limit ++ " in use"
  | .summarized n => "summarized " ++ decimal n ++ " words"

/-- The record as one line, its level first. -/
def text (r : Record) : String := r.level ++ " " ++ r.message

end Record

end TaggedHeap
