import TaggedHeap.Proofs.Text.Numeral
import TaggedHeap.Proofs.Word.Tagging

/-!
# Texts of words

The text of a header is told apart by its second character and the text of a word by its fourth, and
what remains are numerals with fixed words between them. So every text is of one decoded word only,
and every decoded word of one word only.
-/

namespace TaggedHeap

open Numeral

namespace Header

/-- What a text says of the mark. -/
def markText (marked : Bool) : String := if marked then " marked" else ""

theorem markText_injective : Function.Injective markText := by
  intro a b
  cases a <;> cases b <;> decide

theorem ends_markText (marked : Bool) : Ends 10 (markText marked) := by
  cases marked with
  | false => intro c hc; cases hc
  | true => intro c hc; cases hc; rfl

theorem text_cases (h : Header) :
    (h.uid = closureUid ∧
      h.text = "closure captures=" ++ (decimal h.nfields ++ markText h.marked)) ∨
    (h.uid = cstringUid ∧
      h.text = "cstring words=" ++ (decimal h.nfields ++ markText h.marked)) ∨
    h.text = "uid=" ++
      (decimal h.uid ++ (" nfields=" ++ (decimal h.nfields ++ markText h.marked))) := by
  simp only [text, markText, isClosure, isCString, beq_iff_eq, String.append_assoc]
  by_cases hc : h.uid = closureUid
  · exact .inl ⟨hc, by rw [if_pos hc, String.append_assoc]⟩
  by_cases hs : h.uid = cstringUid
  · exact .inr (.inl ⟨hs, by rw [if_neg hc, if_pos hs, String.append_assoc]⟩)
  · exact .inr (.inr (by rw [if_neg hc, if_neg hs]; simp only [String.append_assoc]))

theorem eq_of_fields {g h : Header} (hu : g.uid = h.uid) (hn : g.nfields = h.nfields)
    (hm : g.marked = h.marked) : g = h := by
  cases g
  cases h
  cases hu
  cases hn
  cases hm
  rfl

theorem fields_of_count_append {g h : Header}
    (hgh : decimal g.nfields ++ markText g.marked = decimal h.nfields ++ markText h.marked) :
    g.nfields = h.nfields ∧ g.marked = h.marked := by
  obtain ⟨hn, hm⟩ := decimal_append_inj (ends_markText _) (ends_markText _) hgh
  exact ⟨hn, markText_injective hm⟩

/-- The text of a closure or a string leaves the uid out, but no other header has such a text. -/
theorem text_injective : Function.Injective text := by
  intro g h hgh
  rcases g.text_cases with ⟨hug, hg⟩ | ⟨hug, hg⟩ | hg <;>
    rcases h.text_cases with ⟨huh, hh⟩ | ⟨huh, hh⟩ | hh <;>
    rw [hg, hh] at hgh
  case inl.inl | inr.inl.inr.inl =>
    obtain ⟨hn, hm⟩ := fields_of_count_append ((String.append_right_inj _).1 hgh)
    exact eq_of_fields (hug.trans huh.symm) hn hm
  case inr.inr.inr.inr =>
    obtain ⟨hu, hrest⟩ := decimal_append_inj (ends_append _ rfl rfl) (ends_append _ rfl rfl)
      ((String.append_right_inj _).1 hgh)
    obtain ⟨hn, hm⟩ := fields_of_count_append ((String.append_right_inj _).1 hrest)
    exact eq_of_fields hu hn hm
  -- Texts of two shapes differ by their second character.
  all_goals simp [← String.toList_inj] at hgh

end Header

namespace Decoded

/-- What a text is of. -/
inductive Shape where
  | pointer
  | unboxed
  | dwordPointer
  | header
  | corrupt

def shape : Decoded → Shape
  | .pointer _ => .pointer
  | .unboxed _ => .unboxed
  | .dwordPointer _ => .dwordPointer
  | .header _ => .header
  | .corrupt _ => .corrupt

/-- What the fourth character of a text tells it to be of. -/
def Shape.ofText (s : String) : Shape :=
  match s.toList[3]? with
  | some 't' => .pointer
  | some 'w' => .dwordPointer
  | some 'l' => .header
  | some 's' => .header
  | some 'i' => .header
  | some 'o' => .corrupt
  | _ => .unboxed

theorem Shape.ofText_decimal (n : Nat) : ofText (decimal n) = .unboxed := by
  have hdigit : ∀ c, (decimal n).toList[3]? = some c → (charDigit? 10 c).isSome := fun c hc =>
    isSome_charDigit?_of_mem_text (by decide) (by decide) (List.mem_of_getElem? hc)
  unfold ofText
  split
  case h_7 => rfl
  all_goals
    rename_i hc
    exact absurd (hdigit _ hc) (by decide)

theorem Shape.ofText_append {s : String} (hs : 4 ≤ s.toList.length) (t : String) :
    ofText (s ++ t) = ofText s := by
  unfold ofText
  rw [String.toList_append, List.getElem?_append_left hs]

theorem Shape.ofText_header (h : Header) : ofText ("#<" ++ h.text ++ ">") = .header := by
  rcases h.text_cases with ⟨-, ht⟩ | ⟨-, ht⟩ | ht <;>
    rw [ht, ← String.append_assoc, String.append_assoc, ofText_append (by decide)] <;>
    rfl

theorem Shape.ofText_framed {opening : String} (ho : 4 ≤ opening.toList.length)
    (middle closing : String) : ofText (opening ++ middle ++ closing) = ofText opening := by
  rw [String.append_assoc, ofText_append ho]

theorem shape_ofText (d : Decoded) : Shape.ofText d.text = d.shape := by
  cases d with
  | pointer a => exact Shape.ofText_framed (by decide) (hex a) ">"
  | unboxed n => exact Shape.ofText_decimal n
  | dwordPointer a => exact Shape.ofText_framed (by decide) (hex a) ">"
  | header h => exact Shape.ofText_header h
  | corrupt w => exact Shape.ofText_framed (by decide) (hex w.toNat) ">"

/-- Two numerals between the same words are equal if the texts are. -/
theorem framed_hex_inj {opening : String} {m n : Nat}
    (h : opening ++ hex m ++ ">" = opening ++ hex n ++ ">") : m = n := by
  rw [String.append_left_inj, String.append_right_inj] at h
  exact hex_injective h

theorem text_injective : Function.Injective text := by
  intro d e hde
  have hshape : d.shape = e.shape := by rw [← shape_ofText, ← shape_ofText, hde]
  cases d with
  | pointer a =>
    cases e with
    | pointer b => rw [framed_hex_inj hde]
    | _ => cases hshape
  | unboxed m =>
    cases e with
    | unboxed n => rw [decimal_injective hde]
    | _ => cases hshape
  | dwordPointer a =>
    cases e with
    | dwordPointer b => rw [framed_hex_inj hde]
    | _ => cases hshape
  | header g =>
    cases e with
    | header h =>
      have hgh := (String.append_right_inj _).1 ((String.append_left_inj _).1 hde)
      rw [Header.text_injective hgh]
    | _ => cases hshape
  | corrupt v =>
    cases e with
    | corrupt w =>
      have hvw : v.toNat = w.toNat := framed_hex_inj hde
      rw [Word.toNat_inj.1 hvw]
    | _ => cases hshape

end Decoded

namespace Word

/-- Decoding forgets nothing of a word. -/
theorem decode_injective : Function.Injective decode := by
  intro v w h
  rw [← v.decodesTo_decode.encode_eq, h, w.decodesTo_decode.encode_eq]

/-- The text of a word is lossless: only the word itself has it. -/
theorem text_eq_text_iff (v w : Word) : v.text = w.text ↔ v = w := by
  constructor
  · intro h
    exact decode_injective (Decoded.text_injective h)
  · rintro rfl
    rfl

end Word

end TaggedHeap
