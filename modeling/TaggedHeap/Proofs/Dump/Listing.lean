import TaggedHeap.Proofs.Dump.Columns
import TaggedHeap.Summary

/-!
# What a summary lists

Below the line with the size, every line of a summary is a row: a name and a count, or for a uid the
number as well. The tokens of a row tell the rows apart, and no row has a line feed in it, so the
text of a summary can be cut into its rows again and tells all that the summary counts.
-/

namespace TaggedHeap

open Numeral

namespace Summary

/-! ## Rows -/

/-- A line below the first, with what it counts. -/
inductive Row where
  | kind (k : Kind) (n : Nat)
  | corrupt (n : Nat)
  | uid (u n : Nat)

namespace Row

def text : Row → String
  | kind k n => "  " ++ k.column ++ "  " ++ decimal n
  | corrupt n => "  " ++ Column.place { width := kindWidth } "corrupt" ++ "  " ++ decimal n
  | uid u n => "  uid " ++ Column.place { width := uidWidth } (decimal u) ++ "  " ++ decimal n

/-- The first word of a row. -/
def name : Row → String
  | kind k _ => k.name
  | corrupt _ => "corrupt"
  | uid _ _ => "uid"

/-- The numbers behind it. -/
def numbers : Row → List Nat
  | kind _ n => [n]
  | corrupt n => [n]
  | uid u n => [u, n]

def words (r : Row) : List String := r.name :: r.numbers.map decimal

theorem words_injective : Function.Injective words := by
  intro q r h
  obtain ⟨hname, hnumbers⟩ := List.cons.inj h
  have hnumbers := decimal_injective.list_map hnumbers
  have hkinds : ∀ j k : Kind, j.name = k.name → j = k := by
    intro j k
    cases j <;> cases k <;> decide
  have hnames : ∀ k : Kind, k.name ≠ "corrupt" ∧ k.name ≠ "uid" := by
    intro k
    cases k <;> decide
  cases q with
  | kind j m =>
    cases r with
    | kind k n => rw [hkinds j k hname, List.singleton_inj.1 hnumbers]
    | corrupt n => exact absurd hname (hnames j).1
    | uid u n => exact absurd hname (hnames j).2
  | corrupt m =>
    cases r with
    | kind k n => exact absurd hname.symm (hnames k).1
    | corrupt n => rw [List.singleton_inj.1 hnumbers]
    | uid u n => exact absurd hname (by simp [name])
  | uid t m =>
    cases r with
    | kind k n => exact absurd hname.symm (hnames k).2
    | corrupt n => exact absurd hname (by simp [name])
    | uid u n =>
      obtain ⟨rfl, hcount⟩ := List.cons.inj hnumbers
      rw [List.singleton_inj.1 hcount]

theorem tokens_named {s : String} {n : Nat} (hne : s.toList ≠ [])
    (hs : ∀ c ∈ s.toList, isBlank c = false) :
    tokens ("  " ++ Column.place { width := kindWidth } s ++ "  " ++ decimal n).toList =
      [s.toList, (decimal n).toList] := by
  have hblanks : "  ".toList = [' ', ' '] := rfl
  simp only [String.toList_append, hblanks, List.append_assoc, List.cons_append, List.nil_append]
  rw [tokens_gap, tokens_place_append hne hs, tokens_cons_of_blank (by decide), tokens_decimal]

theorem tokens_uid {u n : Nat} :
    tokens ("  uid " ++ Column.place { width := uidWidth } (decimal u) ++ "  " ++
      decimal n).toList = ["uid".toList, (decimal u).toList, (decimal n).toList] := by
  have hblanks : "  ".toList = [' ', ' '] := rfl
  have hlabel : "  uid ".toList = ' ' :: ' ' :: ("uid".toList ++ [' ']) := rfl
  simp only [String.toList_append, hblanks, hlabel, List.append_assoc, List.cons_append,
    List.nil_append]
  rw [tokens_gap, tokens_append (by decide) (free_of_all (by decide)) (by simp; decide),
    tokens_cons_of_blank (by decide),
    tokens_place_append (decimal_ne_nil u) fun c hc => (inner_of_mem_decimal u c hc).1,
    tokens_cons_of_blank (by decide), tokens_decimal]

/-- The words of a row are what stands between its blanks. -/
theorem tokens_text (r : Row) : tokens r.text.toList = r.words.map String.toList := by
  cases r with
  | kind k n => cases k <;> exact tokens_named (by decide) (free_of_all (by decide))
  | corrupt n => exact tokens_named (by decide) (free_of_all (by decide))
  | uid u n => exact tokens_uid

theorem text_injective : Function.Injective text := by
  intro q r h
  apply words_injective
  apply Function.Injective.list_map (fun _ _ => String.toList_inj.1)
  rw [← tokens_text, ← tokens_text, h]

theorem newline_not_mem_text (r : Row) : '\n' ∉ r.text.toList := by
  have hdecimal (n : Nat) : '\n' ∉ (decimal n).toList := fun h =>
    absurd (inner_of_mem_decimal n _ h) (by decide)
  cases r with
  | kind k n =>
    cases k <;> simp [text, Kind.column, Kind.name, toList_place, hdecimal]
  | corrupt n => simp [text, toList_place, hdecimal]
  | uid u n => simp [text, toList_place, hdecimal]

end Row

/-! ## The text -/

/-- What the lines below the first say. -/
def rows (s : Summary) : List Row :=
  s.kinds.map (fun e => .kind e.1 e.2) ++ (if 0 < s.corrupt then [.corrupt s.corrupt] else []) ++
    s.uids.map (fun e => .uid e.1 e.2)

theorem listing_eq (s : Summary) :
    s.listing = (decimal s.words ++ " words") :: s.rows.map Row.text := by
  simp only [listing, rows, List.map_append, List.map_map, List.cons_append, List.nil_append]
  split <;> rfl

namespace Row

def kind? : Row → Option (Kind × Nat)
  | kind k n => some (k, n)
  | _ => none

def corrupt? : Row → Option Nat
  | corrupt n => some n
  | _ => none

def uid? : Row → Option (Nat × Nat)
  | uid u n => some (u, n)
  | _ => none

end Row

/-- The rows say all that the summary counts, but for the size. -/
theorem counts_of_rows {s t : Summary} (h : s.rows = t.rows) :
    s.kinds = t.kinds ∧ s.corrupt = t.corrupt ∧ s.uids = t.uids := by
  have hkinds (s : Summary) : s.rows.filterMap Row.kind? = s.kinds := by
    simp only [rows, List.filterMap_append, List.filterMap_map]
    split <;> simp [Function.comp_def, Row.kind?]
  have huids (s : Summary) : s.rows.filterMap Row.uid? = s.uids := by
    simp only [rows, List.filterMap_append, List.filterMap_map]
    split <;> simp [Function.comp_def, Row.uid?]
  have hcorrupt (s : Summary) : (s.rows.filterMap Row.corrupt?).headD 0 = s.corrupt := by
    simp only [rows, List.filterMap_append, List.filterMap_map]
    split
    case isTrue => simp [Function.comp_def, Row.corrupt?]
    case isFalse h0 => simp [Function.comp_def, Row.corrupt?]; omega
  refine ⟨?_, ?_, ?_⟩
  · rw [← hkinds s, h, hkinds]
  · rw [← hcorrupt s, h, hcorrupt]
  · rw [← huids s, h, huids]

theorem newline_not_mem_listing {s : Summary} {l : String} (h : l ∈ s.listing) :
    '\n' ∉ l.toList := by
  rw [listing_eq, List.mem_cons] at h
  rcases h with rfl | h
  · have hdecimal : '\n' ∉ (decimal s.words).toList := fun h =>
      absurd (inner_of_mem_decimal _ _ h) (by decide)
    simp [hdecimal]
  · obtain ⟨r, -, rfl⟩ := List.mem_map.1 h
    exact r.newline_not_mem_text

/-- Texts that are ended by line feeds and have none inside are the lines of what they make up. -/
theorem lines_join {ls : List String} (h : ∀ l ∈ ls, '\n' ∉ l.toList) :
    lines (String.join (ls.map (· ++ "\n"))).toList = ls.map String.toList ++ [[]] := by
  induction ls with
  | nil => rfl
  | cons l ls ih =>
    obtain ⟨hl, hls⟩ := List.forall_mem_cons.1 h
    have hjoin : (String.join ((l :: ls).map (· ++ "\n"))).toList =
        l.toList ++ '\n' :: (String.join (ls.map (· ++ "\n"))).toList := by
      simp [String.join_cons]
    have hbreak (cs : List Char) : lines ('\n' :: cs) = [] :: lines cs := rfl
    rw [hjoin, lines_append hl (hbreak _), ih hls, List.append_nil]
    rfl

/-- The text of a summary determines all that the summary counts. -/
theorem counts_of_text {s t : Summary} (h : s.text = t.text) :
    s.words = t.words ∧ s.kinds = t.kinds ∧ s.corrupt = t.corrupt ∧ s.uids = t.uids := by
  have hlines := lines_join (fun l => newline_not_mem_listing (s := s) (l := l))
  rw [← text, h, text, lines_join fun l => newline_not_mem_listing] at hlines
  have hlisting : t.listing = s.listing :=
    Function.Injective.list_map (fun _ _ => String.toList_inj.1) (List.append_cancel_right hlines)
  rw [listing_eq, listing_eq] at hlisting
  obtain ⟨hwords, hrows⟩ := List.cons.inj hlisting
  have hwords := decimal_injective ((String.append_left_inj _).1 hwords)
  exact ⟨hwords.symm, counts_of_rows (Row.text_injective.list_map hrows).symm⟩

end Summary

end TaggedHeap
