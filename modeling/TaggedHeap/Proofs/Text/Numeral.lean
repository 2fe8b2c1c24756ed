import Mathlib.Data.List.Forall2
import Mathlib.Data.Nat.Digits.Defs
import TaggedHeap.Text.Numeral
import TaggedHeap.Word.Reading

/-!
# What a numeral stands for

A numeral is one or more digits of its base, with a plus sign in front if one likes. It stands for
the positional value of the digits, however many zeros they begin with. The reader takes the
numerals whose value is below its limit and nothing else. What is printed ends where its digits end,
so it is found again in front of any text that begins with none.
-/

namespace TaggedHeap.Numeral

/-- The character is the digit: one of the ten figures, or from ten on a letter of either case. -/
inductive IsDigit : Char → Nat → Prop where
  | figure {d : Nat} : d < 10 → IsDigit (Char.ofNat ('0'.toNat + d)) d
  | lower {d : Nat} : d < 26 → IsDigit (Char.ofNat ('a'.toNat + d)) (d + 10)
  | upper {d : Nat} : d < 26 → IsDigit (Char.ofNat ('A'.toNat + d)) (d + 10)

/-- The characters are the digits, each of which the base has. -/
abbrev AreDigits (base : Nat) : List Char → List Nat → Prop :=
  List.Forall₂ fun c d => IsDigit c d ∧ d < base

/-- The characters are one or more digits of the base, with this positional value. -/
def Denotes (base : Nat) (cs : List Char) (n : Nat) : Prop :=
  ∃ ds, cs ≠ [] ∧ AreDigits base cs ds ∧ n = Nat.ofDigits base ds.reverse

/-- The same with a plus sign in front or without one. -/
inductive Signed (base : Nat) : List Char → Nat → Prop where
  | bare {cs : List Char} {n : Nat} : Denotes base cs n → Signed base cs n
  | plus {cs : List Char} {n : Nat} : Denotes base cs n → Signed base ('+' :: cs) n

/-! ## Digits -/

theorem charDigit?_eq_toNat (base : Nat) (c : Char) :
    charDigit? base c =
      (if 48 ≤ c.toNat ∧ c.toNat ≤ 57 then some (c.toNat - 48)
        else if 97 ≤ c.toNat ∧ c.toNat ≤ 122 then some (c.toNat - 87)
        else if 65 ≤ c.toNat ∧ c.toNat ≤ 90 then some (c.toNat - 55)
        else none).filter (· < base) := by
  simp only [charDigit?, Char.le_def, UInt32.le_iff_toNat_le]
  rfl

theorem toNat_ofNat_of_lt_ascii {n : Nat} (h : n < 128) : (Char.ofNat n).toNat = n := by
  have hv : n.isValidChar := .inl (by omega)
  rw [Char.ofNat, dif_pos hv]
  rfl

theorem isDigit_iff {c : Char} {d : Nat} :
    IsDigit c d ↔
      (48 ≤ c.toNat ∧ c.toNat ≤ 57 ∧ d = c.toNat - 48) ∨
        (97 ≤ c.toNat ∧ c.toNat ≤ 122 ∧ d = c.toNat - 87) ∨
          (65 ≤ c.toNat ∧ c.toNat ≤ 90 ∧ d = c.toNat - 55) := by
  constructor
  · intro h
    cases h with
    | figure hd | lower hd | upper hd =>
      simp only [Char.reduceToNat]
      rw [toNat_ofNat_of_lt_ascii (by omega)]
      omega
  · have hc : ∀ {n e}, n + e = c.toNat → Char.ofNat (n + e) = c := fun h => by
      rw [h, Char.ofNat_toNat]
    rintro (⟨hlow, hhigh, rfl⟩ | ⟨hlow, hhigh, rfl⟩ | ⟨hlow, hhigh, rfl⟩)
    · have h := IsDigit.figure (d := c.toNat - 48) (by omega)
      rwa [hc (by simp only [Char.reduceToNat]; omega)] at h
    · have h := IsDigit.lower (d := c.toNat - 97) (by omega)
      rwa [hc (by simp only [Char.reduceToNat]; omega),
        show c.toNat - 97 + 10 = c.toNat - 87 by omega] at h
    · have h := IsDigit.upper (d := c.toNat - 65) (by omega)
      rwa [hc (by simp only [Char.reduceToNat]; omega),
        show c.toNat - 65 + 10 = c.toNat - 55 by omega] at h

theorem charDigit?_eq_some_iff {base : Nat} {c : Char} {d : Nat} :
    charDigit? base c = some d ↔ IsDigit c d ∧ d < base := by
  rw [charDigit?_eq_toNat, Option.filter_eq_some_iff, decide_eq_true_iff, isDigit_iff]
  apply and_congr_left
  intro _
  split
  case isTrue => simp only [Option.some.injEq]; omega
  case isFalse =>
    split
    case isTrue => simp only [Option.some.injEq]; omega
    case isFalse =>
      split
      case isTrue => simp only [Option.some.injEq]; omega
      case isFalse => simp only [reduceCtorEq, false_iff]; omega

theorem mapM_charDigit?_eq_some_iff {base : Nat} {cs : List Char} {ds : List Nat} :
    cs.mapM (charDigit? base) = some ds ↔ AreDigits base cs ds := by
  induction cs generalizing ds with
  | nil => simp [List.forall₂_nil_left_iff, eq_comm]
  | cons c cs ih =>
    rw [List.mapM_cons]
    simp only [bind, pure, Option.bind_eq_some_iff, List.forall₂_cons_left_iff,
      charDigit?_eq_some_iff, ih, Option.some.injEq]
    constructor
    · rintro ⟨d, hd, es, hes, rfl⟩
      exact ⟨d, es, hd, hes, rfl⟩
    · rintro ⟨d, es, hd, hes, rfl⟩
      exact ⟨d, hd, es, hes, rfl⟩

theorem readDigits?_eq_some_iff {base : Nat} {cs : List Char} {ds : List Nat} :
    readDigits? base cs = some ds ↔ cs ≠ [] ∧ AreDigits base cs ds := by
  rw [readDigits?, ← mapM_charDigit?_eq_some_iff]
  cases cs <;> simp

/-! ## Values -/

theorem value_eq_ofDigits (base : Nat) (ds : List Nat) :
    value base ds = Nat.ofDigits base ds.reverse := by
  rw [Nat.ofDigits_eq_foldr, List.foldr_reverse, value]
  congr 1
  funext n d
  simp only [Nat.cast_id]
  rw [Nat.mul_comm, Nat.add_comm]

theorem value_replicate_zero_append (base k : Nat) (ds : List Nat) :
    value base (List.replicate k 0 ++ ds) = value base ds := by
  rw [value_eq_ofDigits, value_eq_ofDigits, List.reverse_append, List.reverse_replicate,
    Nat.ofDigits_append_replicate_zero]

theorem denotes_iff {base : Nat} {cs : List Char} {n : Nat} :
    Denotes base cs n ↔ (readDigits? base cs).map (value base) = some n := by
  simp only [Denotes, Option.map_eq_some_iff, readDigits?_eq_some_iff, value_eq_ofDigits, and_assoc]
  constructor
  · rintro ⟨ds, hne, hds, rfl⟩
    exact ⟨ds, hne, hds, rfl⟩
  · rintro ⟨ds, hne, hds, rfl⟩
    exact ⟨ds, hne, hds, rfl⟩

/-- Every character of a numeral without a sign is a digit. -/
theorem Denotes.exists_charDigit? {base : Nat} {cs : List Char} {n : Nat} (h : Denotes base cs n) :
    ∀ c ∈ cs, ∃ d, charDigit? base c = some d := by
  obtain ⟨ds, -, hds, -⟩ := h
  induction hds with
  | nil => simp
  | cons hd _ ih =>
    intro c hc
    rcases List.mem_cons.1 hc with rfl | hc
    · exact ⟨_, charDigit?_eq_some_iff.2 hd⟩
    · exact ih c hc

/-- A character that is no digit is in no numeral without a sign. -/
theorem Denotes.not_mem {base : Nat} {cs : List Char} {n : Nat} (h : Denotes base cs n) {c : Char}
    (hc : charDigit? base c = none) : c ∉ cs := by
  intro hm
  obtain ⟨d, hd⟩ := h.exists_charDigit? c hm
  rw [hc] at hd
  cases hd

theorem signed_plus_iff {base : Nat} {cs : List Char} {n : Nat} :
    Signed base ('+' :: cs) n ↔ Denotes base cs n := by
  constructor
  · intro h
    cases h with
    | bare h =>
      have hplus : charDigit? base '+' = none := rfl
      exact absurd List.mem_cons_self (h.not_mem hplus)
    | plus h => exact h
  · exact .plus

theorem signed_iff_of_ne {base : Nat} {cs : List Char} {n : Nat} (h : ∀ ds, cs ≠ '+' :: ds) :
    Signed base cs n ↔ Denotes base cs n := by
  constructor
  · intro hs
    cases hs with
    | bare hs => exact hs
    | plus hs => exact absurd rfl (h _)
  · exact .bare

/-- The reader takes the numerals with a value below the limit. -/
theorem readBelow?_eq_some_iff {limit base : Nat} {cs : List Char} {n : Nat} :
    readBelow? limit base cs = some n ↔ Signed base cs n ∧ n < limit := by
  unfold readBelow?
  rw [Option.filter_eq_some_iff, decide_eq_true_iff]
  split
  case h_1 ds => rw [signed_plus_iff, denotes_iff]
  case h_2 hne => rw [signed_iff_of_ne hne, denotes_iff]

/-! ## What is printed -/

theorem lt_of_mem_digits {base n d : Nat} (hb : 2 ≤ base) (h : d ∈ digits base n) : d < base := by
  fun_induction digits base n with
  | case1 n hn =>
    obtain rfl := List.mem_singleton.1 h
    omega
  | case2 n hn ih =>
    rcases List.mem_append.1 h with h | h
    · exact ih h
    · rw [List.mem_singleton.1 h]
      exact Nat.mod_lt _ (by omega)

theorem isDigit_digitChar {d : Nat} (h : d < 16) : IsDigit (digitChar d) d := by
  rw [digitChar]
  split
  case isTrue hd => exact .figure hd
  case isFalse hd =>
    have hl := IsDigit.lower (d := d - 10) (by omega)
    simp only [Char.reduceToNat] at hl
    rwa [Nat.sub_add_cancel (by omega), show 97 + (d - 10) = 87 + d by omega] at hl

theorem areDigits_map_digitChar {base : Nat} (hb : base ≤ 16) {ds : List Nat}
    (h : ∀ d ∈ ds, d < base) : AreDigits base (ds.map digitChar) ds := by
  induction ds with
  | nil => exact .nil
  | cons d ds ih =>
    have hd := h d List.mem_cons_self
    exact .cons ⟨isDigit_digitChar (by omega), hd⟩ (ih fun e he => h e (List.mem_cons_of_mem _ he))

theorem digits_ne_nil (base n : Nat) : digits base n ≠ [] := by
  unfold digits
  split <;> simp

/-- The digits of a number denote it, with any zeros in front of them. -/
theorem denotes_digits {base : Nat} (hb : 2 ≤ base) (hle : base ≤ 16) (k n : Nat) :
    Denotes base (List.replicate k '0' ++ (digits base n).map digitChar) n := by
  have hzeros : List.replicate k '0' = (List.replicate k 0).map digitChar := by
    rw [List.map_replicate]
    rfl
  rw [hzeros, ← List.map_append]
  refine ⟨List.replicate k 0 ++ digits base n, by simp [digits_ne_nil], ?_, ?_⟩
  · apply areDigits_map_digitChar hle
    intro d hd
    rcases List.mem_append.1 hd with hd | hd
    · rw [(List.mem_replicate.1 hd).2]
      omega
    · exact lt_of_mem_digits hb hd
  · rw [← value_eq_ofDigits, value_replicate_zero_append, value_digits]

/-! ## Numerals inside a text -/

/-- A numeral stands for one number only. -/
theorem text_injective {base : Nat} (hb : 2 ≤ base) (hle : base ≤ 16) :
    Function.Injective (text base) := by
  intro m n h
  have hm := denotes_iff.1 (denotes_digits hb hle 0 m)
  have hn := denotes_iff.1 (denotes_digits hb hle 0 n)
  rw [text, text, ← String.toList_inj, String.toList_ofList, String.toList_ofList] at h
  rw [h, hn] at hm
  exact (Option.some.inj hm).symm

theorem isSome_charDigit?_of_mem_text {base n : Nat} (hb : 2 ≤ base) (hle : base ≤ 16) {c : Char}
    (hc : c ∈ (text base n).toList) : (charDigit? base c).isSome := by
  rw [text, String.toList_ofList] at hc
  exact Option.isSome_iff_exists.2 ((denotes_digits hb hle 0 n).exists_charDigit? c hc)

/-- No digit of the base stands first in the text. -/
def Ends (base : Nat) (s : String) : Prop := ∀ c ∈ s.toList.head?, charDigit? base c = none

theorem ends_append {base : Nat} {s : String} (t : String) {c : Char} (h : s.toList.head? = some c)
    (hc : charDigit? base c = none) : Ends base (s ++ t) := by
  intro d hd
  rw [String.toList_append, List.head?_append, h] at hd
  cases hd
  exact hc

theorem takeWhile_text_append {base : Nat} (hb : 2 ≤ base) (hle : base ≤ 16) (n : Nat) {s : String}
    (hs : Ends base s) :
    (text base n ++ s).toList.takeWhile (fun c => (charDigit? base c).isSome) =
      (text base n).toList := by
  rw [String.toList_append,
    List.takeWhile_append_of_pos fun c => isSome_charDigit?_of_mem_text hb hle]
  unfold Ends at hs
  cases hl : s.toList with
  | nil => simp
  | cons c cs =>
    have hc := hs c (by simp [hl])
    simp [hc]

/-- A numeral can be told from what follows it. -/
theorem text_append_inj {base : Nat} (hb : 2 ≤ base) (hle : base ≤ 16) {m n : Nat} {s t : String}
    (hs : Ends base s) (ht : Ends base t) (h : text base m ++ s = text base n ++ t) :
    m = n ∧ s = t := by
  have hmn : text base m = text base n := by
    rw [← String.toList_inj, ← takeWhile_text_append hb hle m hs, h,
      takeWhile_text_append hb hle n ht]
  refine ⟨text_injective hb hle hmn, ?_⟩
  rwa [hmn, String.append_right_inj] at h

theorem decimal_injective : Function.Injective decimal := text_injective (by decide) (by decide)

theorem decimal_append_inj {m n : Nat} {s t : String} (hs : Ends 10 s) (ht : Ends 10 t)
    (h : decimal m ++ s = decimal n ++ t) : m = n ∧ s = t :=
  text_append_inj (by decide) (by decide) hs ht h

theorem hex_injective : Function.Injective hex := by
  intro m n h
  rw [hex, hex, String.append_right_inj] at h
  exact text_injective (by decide) (by decide) h

end TaggedHeap.Numeral
