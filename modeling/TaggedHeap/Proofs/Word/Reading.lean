import Mathlib.Data.List.TakeWhile
import TaggedHeap.Proofs.Text.Numeral

/-!
# The grammar of words

A word is spelled by a numeral of base ten, by one of base sixteen behind `0x` or `0X`, or by one of
base two behind `0b`. No spelling is read in two ways, since the letters of the prefixes are no
decimal digits. Of a text the reader first drops the blanks at the two ends and then the
underscores; it takes what is left if that spells a value below the word limit, and refuses every
other text by showing it without the blanks.
-/

namespace TaggedHeap

/-! ## Blanks at the ends -/

/-- The text without the blanks in front and behind. -/
structure Trimmed (cs t : List Char) : Prop where
  cut : ∃ front back, cs = front ++ t ++ back ∧ (∀ c ∈ front, isBlank c = true) ∧
    ∀ c ∈ back, isBlank c = true
  head_free : ∀ c ∈ t.head?, isBlank c = false
  last_free : ∀ c ∈ t.getLast?, isBlank c = false

theorem dropWhile_of_head {p : Char → Bool} {cs : List Char} (h : ∀ c ∈ cs.head?, p c = false) :
    cs.dropWhile p = cs := by
  cases cs with
  | nil => rfl
  | cons c cs => rw [List.dropWhile_cons_of_neg (by simp [h c rfl])]

theorem free_of_head?_dropWhile {p : Char → Bool} {cs : List Char} :
    ∀ c ∈ (cs.dropWhile p).head?, p c = false := by
  intro c hc
  have h := List.head?_dropWhile_not p cs
  rw [Option.mem_def.1 hc] at h
  exact h

theorem trimmed_trim (cs : List Char) : Trimmed cs (trim cs) := by
  let body := cs.dropWhile isBlank
  let back := (body.reverse.takeWhile isBlank).reverse
  have hbody : body = trim cs ++ back := by
    rw [trim, ← List.reverse_append, List.takeWhile_append_dropWhile, List.reverse_reverse]
  refine ⟨⟨cs.takeWhile isBlank, back, ?_, ?_, ?_⟩, ?_, ?_⟩
  · rw [List.append_assoc, ← hbody, List.takeWhile_append_dropWhile]
  · exact fun c hc => List.mem_takeWhile_imp hc
  · exact fun c hc => List.mem_takeWhile_imp (List.mem_reverse.1 hc)
  · intro c hc
    have hhead : c ∈ body.head? := by
      rw [hbody, List.head?_append, Option.mem_def.1 hc]
      rfl
    exact free_of_head?_dropWhile c hhead
  · rw [trim, List.getLast?_reverse]
    exact free_of_head?_dropWhile

/-- Blanks in front of a text that starts with none, or is empty, are what is dropped from it. -/
theorem dropWhile_append_of_head {front t : List Char} (hfront : ∀ c ∈ front, isBlank c = true)
    (ht : ∀ c ∈ t.head?, isBlank c = false) : (front ++ t).dropWhile isBlank = t := by
  rw [List.dropWhile_append_of_pos hfront, dropWhile_of_head ht]

theorem Trimmed.eq_trim {cs t : List Char} (h : Trimmed cs t) : t = trim cs := by
  obtain ⟨front, back, rfl, hfront, hback⟩ := h.cut
  have hback' : ∀ c ∈ back.reverse, isBlank c = true := fun c hc => hback c (List.mem_reverse.1 hc)
  rw [trim, List.append_assoc, List.dropWhile_append_of_pos hfront]
  cases t with
  | nil =>
    rw [List.nil_append, List.dropWhile_eq_nil_iff.2 hback]
    rfl
  | cons c t =>
    have hhead : ∀ d ∈ (c :: t ++ back).head?, isBlank d = false := h.head_free
    rw [dropWhile_of_head hhead, List.reverse_append, dropWhile_append_of_head hback',
      List.reverse_reverse]
    rw [List.head?_reverse]
    exact h.last_free

/-- A text without blanks is left as it is. -/
theorem trim_of_free {cs : List Char} (h : ∀ c ∈ cs, isBlank c = false) : trim cs = cs := by
  apply Eq.symm
  apply Trimmed.eq_trim
  refine ⟨⟨[], [], by simp, by simp, by simp⟩, ?_, ?_⟩
  · exact fun c hc => h c (List.mem_of_mem_head? hc)
  · exact fun c hc => h c (List.mem_of_mem_getLast? hc)

namespace Word

open Numeral

/-! ## Spellings -/

/-- The text is a numeral for the value, behind the prefix of its base. -/
inductive Spells : List Char → Nat → Prop where
  | hex {cs : List Char} {n : Nat} : Signed 16 cs n → Spells ('0' :: 'x' :: cs) n
  | hexUpper {cs : List Char} {n : Nat} : Signed 16 cs n → Spells ('0' :: 'X' :: cs) n
  | binary {cs : List Char} {n : Nat} : Signed 2 cs n → Spells ('0' :: 'b' :: cs) n
  | decimal {cs : List Char} {n : Nat} : Signed 10 cs n → Spells cs n

/-- No decimal numeral has a letter for its second character. -/
theorem not_signed_ten {c : Char} (hc : charDigit? 10 c = none) {cs : List Char} {n : Nat} :
    ¬ Signed 10 ('0' :: c :: cs) n := by
  intro h
  rw [signed_iff_of_ne (by simp)] at h
  exact h.not_mem hc (by simp)

theorem spells_hex_iff {cs : List Char} {n : Nat} :
    Spells ('0' :: 'x' :: cs) n ↔ Signed 16 cs n := by
  refine ⟨fun h => ?_, .hex⟩
  cases h with
  | hex h => exact h
  | decimal h => exact absurd h (not_signed_ten rfl)

theorem spells_hexUpper_iff {cs : List Char} {n : Nat} :
    Spells ('0' :: 'X' :: cs) n ↔ Signed 16 cs n := by
  refine ⟨fun h => ?_, .hexUpper⟩
  cases h with
  | hexUpper h => exact h
  | decimal h => exact absurd h (not_signed_ten rfl)

theorem spells_binary_iff {cs : List Char} {n : Nat} :
    Spells ('0' :: 'b' :: cs) n ↔ Signed 2 cs n := by
  refine ⟨fun h => ?_, .binary⟩
  cases h with
  | binary h => exact h
  | decimal h => exact absurd h (not_signed_ten rfl)

theorem Spells.ne_nil {cs : List Char} {n : Nat} (h : Spells cs n) : cs ≠ [] := by
  rintro rfl
  cases h with
  | decimal h =>
    cases h with
    | bare h =>
      obtain ⟨_, hne, -⟩ := h
      exact hne rfl

/-- The reader of clean texts takes the spellings of values below the limit. -/
theorem readClean?_eq_some_iff {cs : List Char} {n : Nat} :
    readClean? cs = some n ↔ Spells cs n ∧ n < wordLimit := by
  unfold readClean?
  split
  case h_1 => rw [readBelow?_eq_some_iff, spells_hex_iff]
  case h_2 => rw [readBelow?_eq_some_iff, spells_hexUpper_iff]
  case h_3 => rw [readBelow?_eq_some_iff, spells_binary_iff]
  case h_4 hx hX hb =>
    rw [readBelow?_eq_some_iff]
    apply and_congr_left
    intro _
    refine ⟨.decimal, fun h => ?_⟩
    cases h with
    | hex _ => exact absurd rfl (hx _)
    | hexUpper _ => exact absurd rfl (hX _)
    | binary _ => exact absurd rfl (hb _)
    | decimal h => exact h

/-! ## Texts -/

theorem read_of_readClean? {cs : List Char} {n : Nat}
    (h : readClean? ((trim cs).filter (· != '_')) = some n) : read cs = .ok (ofNat n) := by
  simp only [read, h]

theorem read_of_readClean?_eq_none {cs : List Char}
    (h : readClean? ((trim cs).filter (· != '_')) = none) : read cs = .error (.word (trim cs)) := by
  simp only [read, h]

theorem readClean?_eq_none_iff {cs : List Char} :
    readClean? cs = none ↔ ¬ ∃ n, Spells cs n ∧ n < wordLimit := by
  simp only [← readClean?_eq_some_iff, Option.eq_none_iff_forall_ne_some, ne_eq, not_exists]

theorem read_eq_ok_iff {cs : List Char} {w : Word} :
    read cs = .ok w ↔ Spells ((trim cs).filter (· != '_')) w.toNat := by
  have hs := @readClean?_eq_some_iff ((trim cs).filter (· != '_')) w.toNat
  rw [and_iff_left w.toNat_lt] at hs
  rw [← hs]
  cases h : readClean? ((trim cs).filter (· != '_')) with
  | some n =>
    obtain ⟨-, hn⟩ := readClean?_eq_some_iff.1 h
    rw [read_of_readClean? h, Except.ok.injEq, Option.some.injEq, ← toNat_inj, toNat_ofNat_of_lt hn]
  | none => simp [read_of_readClean?_eq_none h]

/-- The one error of the reader shows the text without the blanks at its ends. -/
theorem read_eq_error_iff {cs : List Char} {e : ReadError} :
    read cs = .error e ↔
      e = .word (trim cs) ∧ ¬ ∃ n, Spells ((trim cs).filter (· != '_')) n ∧ n < wordLimit := by
  rw [← readClean?_eq_none_iff]
  cases h : readClean? ((trim cs).filter (· != '_')) with
  | some n => simp [read_of_readClean? h]
  | none => simp [read_of_readClean?_eq_none h, eq_comm]

/-- Every text has one part between blanks, and with the underscores of that part deleted either it
spells a value below the limit, which is the word read, or the text is refused by showing the part,
underscores and all. -/
theorem read_accepts_spellings (cs : List Char) :
    ∃ t, Trimmed cs t ∧ (∀ t', Trimmed cs t' → t' = t) ∧
      (∀ w, read cs = .ok w ↔
        ∃ n, Spells (t.filter (· != '_')) n ∧ n < wordLimit ∧ w.toNat = n) ∧
      (∀ e, read cs = .error e ↔
        e = .word t ∧ ¬ ∃ n, Spells (t.filter (· != '_')) n ∧ n < wordLimit) := by
  refine ⟨trim cs, trimmed_trim cs, fun _ h => h.eq_trim, fun w => ?_, fun e => read_eq_error_iff⟩
  rw [read_eq_ok_iff]
  constructor
  · exact fun h => ⟨_, h, w.toNat_lt, rfl⟩
  · rintro ⟨n, h, -, rfl⟩
    exact h

end Word

end TaggedHeap
