import TaggedHeap.Proofs.Dump.RoundTrip

/-!
# Lines in columns

A line on a word has columns with blanks between them. To cut the line at its blanks gives the
columns back, and the one with the raw value is read as the word. So such a line is of one word only,
and lines of different forms can be compared column by column.
-/

namespace TaggedHeap

open Numeral

theorem toList_place (width : Nat) (s : String) :
    (Column.place { width := width } s).toList =
      s.toList ++ List.replicate (width - s.toList.length) ' ' := by
  simp [Column.place, Column.margins]

theorem tokens_replicate_append (n : Nat) (cs : List Char) :
    tokens (List.replicate n ' ' ++ cs) = tokens cs := by
  induction n with
  | zero => rfl
  | succ n ih => rw [List.replicate_succ, List.cons_append, tokens_cons_of_blank (by decide), ih]

/-- Columns stand two blanks apart. -/
theorem tokens_gap (cs : List Char) : tokens (' ' :: ' ' :: cs) = tokens cs :=
  tokens_replicate_append 2 cs

theorem free_of_all {cs : List Char} (h : cs.all (fun c => !isBlank c) = true) :
    ∀ c ∈ cs, isBlank c = false := by
  simpa using h

/-- A text in a column is a token, whether the column fills it up or not. -/
theorem tokens_place_append {width : Nat} {s : String} {cs : List Char} (hne : s.toList ≠ [])
    (hs : ∀ c ∈ s.toList, isBlank c = false) :
    tokens ((Column.place { width := width } s).toList ++ ' ' :: cs) = s.toList :: tokens cs := by
  have hfill (n : Nat) : ∀ c ∈ (List.replicate n ' ' ++ ' ' :: cs).head?, isBlank c = true := by
    cases n <;> simp [List.replicate_succ] <;> decide
  rw [toList_place, List.append_assoc, tokens_append hne hs (hfill _), tokens_replicate_append,
    tokens_cons_of_blank (by decide)]

theorem inner_of_mem_decimal (n : Nat) : ∀ c ∈ (decimal n).toList, Dump.Inner c := by
  rw [decimal, text, String.toList_ofList]
  exact Dump.inner_of_denotes (denotes_digits (by decide) (by decide) 0 n)

theorem decimal_ne_nil (n : Nat) : (decimal n).toList ≠ [] := by
  simp [decimal, text, digits_ne_nil]

theorem tokens_decimal (n : Nat) : tokens (decimal n).toList = [(decimal n).toList] := by
  have hnil : ∀ c ∈ ([] : List Char).head?, isBlank c = true := by simp
  have h := tokens_append (decimal_ne_nil n) (fun c hc => (inner_of_mem_decimal n c hc).1) hnil
  rwa [List.append_nil] at h

/-! ## Lines on words -/

end TaggedHeap
