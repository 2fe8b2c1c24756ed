import TaggedHeap.Proofs.Dump.Tokens
import TaggedHeap.Proofs.Word.Reading

/-!
# Dumps read back

A dump may write each word as the listing shows it, in decimal or in binary, with zeros in front of
the digits and underscores among them, and keeps two words apart by blanks and comments. The tokens
of such a text are the spellings of its words, in whatever layout, and each is read as its word.
-/

namespace TaggedHeap.Dump

/-! ## Spellings of a word -/

/-- The word in one of three bases, the digits as they are printed with zeros put in front. -/
inductive Plain (w : Word) : List Char → Prop where
  | column (zeros : Nat) {ds : List Char} : w.rawColumn.toList = '0' :: 'x' :: ds →
      Plain w ('0' :: 'x' :: (List.replicate zeros '0' ++ ds))
  | decimal (zeros : Nat) :
      Plain w (List.replicate zeros '0' ++ (Numeral.decimal w.toNat).toList)
  | binary (zeros : Nat) :
      Plain w ('0' :: 'b' :: (List.replicate zeros '0' ++ (Numeral.text 2 w.toNat).toList))

/-- The same with underscores among the characters. -/
def Spelling (w : Word) (cs : List Char) : Prop := Plain w (cs.filter (· != '_'))

theorem rawColumn_toList (w : Word) : ∃ zeros, w.rawColumn.toList =
    '0' :: 'x' :: (List.replicate zeros '0' ++ (Numeral.digits 16 w.toNat).map Numeral.digitChar) := by
  refine ⟨16 - ((Numeral.digits 16 w.toNat).map Numeral.digitChar).length, ?_⟩
  simp only [Word.rawColumn, Numeral.zeroFilled, String.toList_append, String.toList_ofList]
  rfl

theorem Plain.spells {w : Word} {cs : List Char} (h : Plain w cs) : Word.Spells cs w.toNat := by
  cases h with
  | column zeros hcolumn =>
    obtain ⟨filled, hfilled⟩ := rawColumn_toList w
    rw [hcolumn] at hfilled
    obtain ⟨-, rfl⟩ := List.cons.inj (List.cons.inj hfilled).2
    rw [← List.append_assoc, List.replicate_append_replicate]
    apply Word.Spells.hex
    apply Numeral.Signed.bare
    exact Numeral.denotes_digits (by decide) (by decide) _ w.toNat
  | decimal zeros =>
    apply Word.Spells.decimal
    apply Numeral.Signed.bare
    rw [Numeral.decimal, Numeral.text, String.toList_ofList]
    exact Numeral.denotes_digits (by decide) (by decide) zeros w.toNat
  | binary zeros =>
    apply Word.Spells.binary
    apply Numeral.Signed.bare
    rw [Numeral.text, String.toList_ofList]
    exact Numeral.denotes_digits (by decide) (by decide) zeros w.toNat

/-! ## Spellings as tokens -/

theorem inner_of_isDigit {c : Char} {d : Nat} (h : Numeral.IsDigit c d) : Inner c := by
  have hfigure : ∀ d < 10, Inner (Char.ofNat ('0'.toNat + d)) := by decide
  have hlower : ∀ d < 26, Inner (Char.ofNat ('a'.toNat + d)) := by decide
  have hupper : ∀ d < 26, Inner (Char.ofNat ('A'.toNat + d)) := by decide
  cases h with
  | figure hd => exact hfigure _ hd
  | lower hd => exact hlower _ hd
  | upper hd => exact hupper _ hd

theorem inner_of_denotes {base n : Nat} {cs : List Char} (h : Numeral.Denotes base cs n) :
    ∀ c ∈ cs, Inner c := by
  intro c hc
  obtain ⟨d, hd⟩ := h.exists_charDigit? c hc
  exact inner_of_isDigit (Numeral.charDigit?_eq_some_iff.1 hd).1

theorem inner_of_signed {base n : Nat} {cs : List Char} (h : Numeral.Signed base cs n) :
    ∀ c ∈ cs, Inner c := by
  cases h with
  | bare h => exact inner_of_denotes h
  | plus h => exact List.forall_mem_cons.2 ⟨by decide, inner_of_denotes h⟩

theorem inner_of_spells {n : Nat} {cs : List Char} (h : Word.Spells cs n) : ∀ c ∈ cs, Inner c := by
  have hzero : Inner '0' := by decide
  have hbehind : ∀ {c cs}, Inner c → (∀ d ∈ cs, Inner d) → ∀ d ∈ '0' :: c :: cs, Inner d :=
    fun hc hcs => List.forall_mem_cons.2 ⟨hzero, List.forall_mem_cons.2 ⟨hc, hcs⟩⟩
  cases h with
  | hex h => exact hbehind (by decide) (inner_of_signed h)
  | hexUpper h => exact hbehind (by decide) (inner_of_signed h)
  | binary h => exact hbehind (by decide) (inner_of_signed h)
  | decimal h => exact inner_of_signed h

theorem Spelling.ne_nil {w : Word} {cs : List Char} (h : Spelling w cs) : cs ≠ [] := by
  rintro rfl
  exact (Plain.spells h).ne_nil rfl

theorem Spelling.inner {w : Word} {cs : List Char} (h : Spelling w cs) : ∀ c ∈ cs, Inner c := by
  intro c hc
  by_cases hunderscore : c = '_'
  · subst hunderscore
    decide
  · exact inner_of_spells (Plain.spells h) c (List.mem_filter.2 ⟨hc, by simpa using hunderscore⟩)

/-- A spelling is read as its word. -/
theorem Spelling.read_eq {w : Word} {cs : List Char} (h : Spelling w cs) :
    Word.read cs = .ok w := by
  rw [Word.read_eq_ok_iff, trim_of_free fun c hc => (h.inner c hc).1]
  exact Plain.spells h

/-! ## Layouts -/

/-- Blanks, and comments up to the ends of their lines. -/
inductive Gap : List Char → Prop where
  | nil : Gap []
  | blank {c : Char} {cs : List Char} : isBlank c = true → Gap cs → Gap (c :: cs)
  | comment {note cs : List Char} : '\n' ∉ note → Gap cs → Gap ('#' :: note ++ '\n' :: cs)

/-- The words from the first one on: each is spelled and followed by a gap, which may only be empty
after the last word, where a comment may end the text. -/
inductive Body : List Word → List Char → Prop where
  | nil : Body [] []
  | comment {note : List Char} : '\n' ∉ note → Body [] ('#' :: note)
  | word {w : Word} {ws : List Word} {s gap rest : List Char} : Spelling w s → Gap gap →
      (ws ≠ [] → gap ≠ []) → Body ws rest → Body (w :: ws) (s ++ (gap ++ rest))

/-- A dump of the words: a gap and then the words. -/
inductive Written (ws : List Word) : List Char → Prop where
  | mk {gap body : List Char} : Gap gap → Body ws body → Written ws (gap ++ body)

theorem words_gap {gap : List Char} (h : Gap gap) (rest : List Char) :
    words (gap ++ rest) = words rest := by
  induction h with
  | nil => rfl
  | blank hc _ ih => rw [List.cons_append, words_blank hc, ih]
  | comment hnote _ ih =>
    rw [List.append_assoc, List.cons_append (a := '\n'), words_comment hnote, ih]

theorem Gap.head {gap : List Char} (h : Gap gap) : ∀ c ∈ gap.head?, ¬ Inner c := by
  cases h with
  | nil => simp
  | blank hc => simp [Inner, hc]
  | comment => simp [Inner]

theorem Body.head_of_nil {cs : List Char} (h : Body [] cs) : ∀ c ∈ cs.head?, ¬ Inner c := by
  cases h with
  | nil => simp
  | comment => simp [Inner]

/-- A word is followed by no character that could belong to it. -/
theorem head_gap_append {ws : List Word} {gap rest : List Char} (hgap : Gap gap)
    (hsep : ws ≠ [] → gap ≠ []) (hrest : Body ws rest) : ∀ c ∈ (gap ++ rest).head?, ¬ Inner c := by
  cases gap with
  | cons d gap => exact hgap.head
  | nil =>
    obtain rfl : ws = [] := by simpa using hsep
    exact hrest.head_of_nil

theorem map_read_words_body {ws : List Word} {text : List Char} (h : Body ws text) :
    (words text).map Word.read = ws.map .ok := by
  induction h with
  | nil => rfl
  | comment hnote => rw [words_last_comment hnote]; rfl
  | word hs hgap hsep hrest ih =>
    rw [words_append hs.ne_nil hs.inner (head_gap_append hgap hsep hrest), words_gap hgap,
      List.map_cons, hs.read_eq, ih, List.map_cons]

/-- A dump that writes the words, in whatever spelling and layout, is read as these words. -/
theorem read_written {ws : List Word} {text : List Char} (h : Written ws text) :
    read text = .ok ws := by
  obtain ⟨hgap, hbody⟩ := h
  apply read_eq_ok
  rw [words_gap hgap, map_read_words_body hbody]

/-- Two words, the second in binary, with comments between them and at the end. -/
theorem read_written_sample :
    let text := "\r\n0x0000_0000_0000_002a# answer\n\t0b_0_0110 # end".toList
    Written [.ofNat 42, .ofNat 6] text ∧ read text = .ok [.ofNat 42, .ofNat 6] := by
  have hcolumn : Spelling (.ofNat 42) "0x0000_0000_0000_002a".toList := by
    apply Plain.column 0
    decide +kernel
  have hbinary : Spelling (.ofNat 6) "0b_0_0110".toList := by
    have htext : (Numeral.text 2 (Word.ofNat 6).toNat).toList = ['1', '1', '0'] := by
      decide +kernel
    have h := Plain.binary (w := .ofNat 6) 2
    rw [htext] at h
    exact h
  have hfront : Gap ['\r', '\n'] := .blank (by decide) (.blank (by decide) .nil)
  have hnote : '\n' ∉ " answer".toList := by decide
  have hgap : Gap ('#' :: " answer".toList ++ '\n' :: ['\t']) :=
    .comment hnote (.blank (by decide) .nil)
  have hspace : Gap [' '] := .blank (by decide) .nil
  have hend : '\n' ∉ " end".toList := by decide
  have hbody : Body [.ofNat 42, .ofNat 6] _ :=
    .word hcolumn hgap (by simp) (.word hbinary hspace (by simp) (.comment hend))
  have h : Written [.ofNat 42, .ofNat 6]
      "\r\n0x0000_0000_0000_002a# answer\n\t0b_0_0110 # end".toList :=
    .mk hfront hbody
  exact ⟨h, read_written h⟩

end TaggedHeap.Dump
