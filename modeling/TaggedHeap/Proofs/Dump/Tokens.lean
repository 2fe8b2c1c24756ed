import TaggedHeap.Dump

/-!
# The tokens of a dump

Splitting a dump into lines, cutting the comments off and splitting what is left at blanks amounts
to one walk along the text: blanks and comments are passed over, and other characters form a token
up to the next blank or comment. A dump is read by reading its tokens one after the other, each with
the number of its line.
-/

namespace TaggedHeap

/-! ## Pieces and tokens -/

theorem pieces_cons_of_not {p : Char → Bool} {c : Char} {cs first : List Char}
    {rest : List (List Char)} (hc : p c = false) (h : pieces p cs = first :: rest) :
    pieces p (c :: cs) = (c :: first) :: rest := by
  simp [pieces, hc, h]

theorem pieces_of_free {p : Char → Bool} {cs : List Char} (h : ∀ c ∈ cs, p c = false) :
    pieces p cs = [cs] := by
  induction cs with
  | nil => rfl
  | cons c cs ih =>
    obtain ⟨hc, hcs⟩ := List.forall_mem_cons.1 h
    exact pieces_cons_of_not hc (ih hcs)

theorem tokens_cons_of_blank {c : Char} (hc : isBlank c = true) (cs : List Char) :
    tokens (c :: cs) = tokens cs := by
  simp [tokens, pieces, hc]

/-- Characters up to a blank or the end are a token. -/
theorem tokens_append {s rest : List Char} (hne : s ≠ []) (hs : ∀ c ∈ s, isBlank c = false)
    (hrest : ∀ c ∈ rest.head?, isBlank c = true) : tokens (s ++ rest) = s :: tokens rest := by
  cases rest with
  | nil => simp [tokens, pieces_of_free hs, hne, pieces]
  | cons c rest =>
    rw [tokens_cons_of_blank (hrest c rfl), tokens, pieces_append_cons (hrest c rfl),
      pieces_of_free hs]
    simp [tokens, hne]

/-! ## Lines -/

theorem lines_cons {c : Char} {cs first : List Char} {rest : List (List Char)} (hc : c ≠ '\n')
    (h : lines cs = first :: rest) : lines (c :: cs) = (c :: first) :: rest :=
  pieces_cons_of_not (p := (· == '\n')) (beq_eq_false_iff_ne.2 hc) h

theorem lines_append {a b first : List Char} {rest : List (List Char)} (ha : '\n' ∉ a)
    (h : lines b = first :: rest) : lines (a ++ b) = (a ++ first) :: rest := by
  induction a with
  | nil => exact h
  | cons c a ih =>
    rw [List.mem_cons, not_or] at ha
    exact lines_cons (Ne.symm ha.1) (ih ha.2)

theorem exists_lines_eq_cons (cs : List Char) : ∃ first rest, lines cs = first :: rest :=
  List.exists_cons_of_ne_nil (pieces_ne_nil _ cs)

/-- The first line begins as the text does. -/
theorem mem_head?_of_mem_first {cs first : List Char} {rest : List (List Char)}
    (h : lines cs = first :: rest) : ∀ c ∈ first.head?, c ∈ cs.head? := by
  cases cs with
  | nil =>
    obtain ⟨rfl, -⟩ := List.cons.inj h
    simp
  | cons d cs =>
    by_cases hd : d = '\n'
    · subst hd
      obtain ⟨rfl, -⟩ := List.cons.inj h
      simp
    · obtain ⟨first', rest', hcs⟩ := exists_lines_eq_cons cs
      rw [lines_cons hd hcs] at h
      obtain ⟨rfl, -⟩ := List.cons.inj h
      simp

namespace Dump

/-! ## Tokens of a dump -/

/-- The tokens of lines without the comments, each with the number of its line. The first line has
the given number. -/
def numbered (line : Nat) : List (List Char) → List (List Char × Nat)
  | [] => []
  | l :: ls => (tokens (code l)).map (·, line) ++ numbered (line + 1) ls

/-- The tokens of all lines, without the comments. -/
def words (text : List Char) : List (List Char) := (lines text).flatMap fun l => tokens (code l)

theorem map_fst_numbered (line : Nat) (ls : List (List Char)) :
    (numbered line ls).map Prod.fst = ls.flatMap fun l => tokens (code l) := by
  induction ls generalizing line with
  | nil => rfl
  | cons l ls ih => simp [numbered, ih, Function.comp_def]

theorem words_eq (line : Nat) (text : List Char) :
    words text = (numbered line (lines text)).map Prod.fst :=
  (map_fst_numbered line _).symm

/-- The character neither parts two tokens nor begins a comment. -/
def Inner (c : Char) : Prop := isBlank c = false ∧ c ≠ '#'

instance : DecidablePred Inner := fun _ => inferInstanceAs (Decidable (_ ∧ _))

theorem code_cons {c : Char} (hc : c ≠ '#') (cs : List Char) : code (c :: cs) = c :: code cs :=
  List.takeWhile_cons_of_pos (bne_iff_ne.2 hc)

theorem code_append {s : List Char} (hs : '#' ∉ s) (rest : List Char) :
    code (s ++ rest) = s ++ code rest := by
  induction s with
  | nil => rfl
  | cons c s ih =>
    rw [List.mem_cons, not_or] at hs
    rw [List.cons_append, code_cons (Ne.symm hs.1), ih hs.2, List.cons_append]

section Layout

variable (line : Nat)

theorem numbered_newline (cs : List Char) :
    numbered line (lines ('\n' :: cs)) = numbered (line + 1) (lines cs) := rfl

theorem numbered_blank {c : Char} (hc : isBlank c = true) (hnl : c ≠ '\n') (cs : List Char) :
    numbered line (lines (c :: cs)) = numbered line (lines cs) := by
  have hhash : c ≠ '#' := by
    rintro rfl
    exact absurd hc (by decide)
  obtain ⟨first, rest, hcs⟩ := exists_lines_eq_cons cs
  rw [lines_cons hnl hcs, hcs, numbered, numbered, code_cons hhash, tokens_cons_of_blank hc]

theorem numbered_comment {note : List Char} (h : '\n' ∉ note) (cs : List Char) :
    numbered line (lines ('#' :: note ++ '\n' :: cs)) = numbered (line + 1) (lines cs) := by
  have hcs : lines ('\n' :: cs) = [] :: lines cs := rfl
  rw [lines_append (by simpa using h) hcs, numbered]
  rfl

theorem numbered_last_comment {note : List Char} (h : '\n' ∉ note) :
    numbered line (lines ('#' :: note)) = [] := by
  have hnil : lines [] = [[]] := rfl
  have hlines := lines_append (a := '#' :: note) (by simpa using h) hnil
  rw [List.append_nil] at hlines
  rw [hlines]
  rfl

/-- Characters up to one of the other kind, or the end, are a token. -/
theorem numbered_append {s rest : List Char} (hne : s ≠ []) (hs : ∀ c ∈ s, Inner c)
    (hrest : ∀ c ∈ rest.head?, ¬ Inner c) :
    numbered line (lines (s ++ rest)) = (s, line) :: numbered line (lines rest) := by
  have hnl : '\n' ∉ s := fun h => absurd (hs _ h) (by decide)
  have hhash : '#' ∉ s := fun h => absurd (hs _ h) (by decide)
  obtain ⟨first, others, hlines⟩ := exists_lines_eq_cons rest
  have hfirst : ∀ c ∈ (code first).head?, isBlank c = true := by
    intro c hc
    rw [code, List.head?_takeWhile, Option.mem_def, Option.filter_eq_some_iff, bne_iff_ne] at hc
    have hc' := hrest c (mem_head?_of_mem_first hlines c hc.1)
    rw [Inner, and_iff_left hc.2, Bool.not_eq_false] at hc'
    exact hc'
  rw [lines_append hnl hlines, hlines, numbered, numbered, code_append hhash,
    tokens_append hne (fun c hc => (hs c hc).1) hfirst]
  rfl

end Layout

theorem words_blank {c : Char} (hc : isBlank c = true) (cs : List Char) :
    words (c :: cs) = words cs := by
  by_cases hnl : c = '\n'
  · rw [hnl]
    rfl
  · rw [words_eq 1, words_eq 1, numbered_blank 1 hc hnl]

theorem words_comment {note : List Char} (h : '\n' ∉ note) (cs : List Char) :
    words ('#' :: note ++ '\n' :: cs) = words cs := by
  rw [words_eq 1, words_eq 2, numbered_comment 1 h]

theorem words_last_comment {note : List Char} (h : '\n' ∉ note) : words ('#' :: note) = [] := by
  rw [words_eq 1, numbered_last_comment 1 h]
  rfl

theorem words_append {s rest : List Char} (hne : s ≠ []) (hs : ∀ c ∈ s, Inner c)
    (hrest : ∀ c ∈ rest.head?, ¬ Inner c) : words (s ++ rest) = s :: words rest := by
  rw [words_eq 1, words_eq 1, numbered_append 1 hne hs hrest]
  rfl

/-! ## Reading the tokens -/

/-- The words of tokens, each with the number of its line. -/
def readNumbered : List (List Char × Nat) → Except ReadError (List Word)
  | [] => .ok []
  | (t, line) :: ts =>
    match Word.read t with
    | .error _ => .error (.dumpWord t line)
    | .ok w =>
      match readNumbered ts with
      | .error e => .error e
      | .ok ws => .ok (w :: ws)

/-- The error of the first if it has one, and otherwise what both answer, one behind the other. -/
def followedBy (x y : Except ReadError (List Word)) : Except ReadError (List Word) :=
  match x with
  | .error e => .error e
  | .ok ws =>
    match y with
    | .error e => .error e
    | .ok vs => .ok (ws ++ vs)

theorem readNumbered_append (ts us : List (List Char × Nat)) :
    readNumbered (ts ++ us) = followedBy (readNumbered ts) (readNumbered us) := by
  induction ts with
  | nil => cases h : readNumbered us <;> simp [readNumbered, followedBy, h]
  | cons t ts ih =>
    obtain ⟨t, line⟩ := t
    simp only [List.cons_append, readNumbered, ih]
    cases Word.read t with
    | error e => rfl
    | ok w =>
      cases readNumbered ts with
      | error e => rfl
      | ok ws => cases readNumbered us <;> rfl

theorem readTokens_eq (line : Nat) (ts : List (List Char)) :
    readTokens line ts = readNumbered (ts.map (·, line)) := by
  induction ts with
  | nil => rfl
  | cons t ts ih =>
    cases hw : Word.read t with
    | error e => simp only [readTokens, List.map_cons, readNumbered, hw]
    | ok w =>
      cases hr : readNumbered (ts.map (·, line)) <;>
        simp only [readTokens, List.map_cons, readNumbered, hw, ih, hr]

theorem readLines_eq (line : Nat) (ls : List (List Char)) :
    readLines line ls = readNumbered (numbered line ls) := by
  induction ls generalizing line with
  | nil => rfl
  | cons l ls ih =>
    rw [numbered, readNumbered_append, ← readTokens_eq, ← ih]
    rfl

theorem readNumbered_eq_ok_iff {ts : List (List Char × Nat)} {ws : List Word} :
    readNumbered ts = .ok ws ↔ ts.map (fun t => Word.read t.1) = ws.map .ok := by
  induction ts generalizing ws with
  | nil => cases ws <;> simp [readNumbered]
  | cons t ts ih =>
    obtain ⟨t, line⟩ := t
    constructor
    · intro h
      simp only [readNumbered] at h
      cases hw : Word.read t with
      | error e => simp [hw] at h
      | ok w =>
        cases hr : readNumbered ts with
        | error e => simp [hw, hr] at h
        | ok vs =>
          obtain rfl : w :: vs = ws := by simpa [hw, hr] using h
          rw [List.map_cons, ih.1 hr, hw, List.map_cons]
    · intro h
      obtain ⟨w, vs, rfl, hw, hvs⟩ := List.map_eq_cons_iff.1 h.symm
      simp only [readNumbered, ← hw, ih.2 hvs.symm]

theorem exists_readNumbered_eq_ok_iff {ts : List (List Char × Nat)} :
    (∃ ws, readNumbered ts = .ok ws) ↔ ∀ t ∈ ts, ∃ w, Word.read t.1 = .ok w := by
  simp only [readNumbered_eq_ok_iff]
  induction ts with
  | nil => exact iff_of_true ⟨[], rfl⟩ (by simp)
  | cons t ts ih =>
    rw [List.forall_mem_cons, ← ih]
    constructor
    · rintro ⟨ws, h⟩
      obtain ⟨w, vs, -, hw, hvs⟩ := List.map_eq_cons_iff.1 h.symm
      exact ⟨⟨w, hw.symm⟩, vs, hvs.symm⟩
    · rintro ⟨⟨w, hw⟩, vs, hvs⟩
      exact ⟨w :: vs, by rw [List.map_cons, hw, hvs, List.map_cons]⟩

/-- The first token that is no word stops the reading. -/
theorem readNumbered_eq_error_iff {ts : List (List Char × Nat)} {e : ReadError} :
    readNumbered ts = .error e ↔
      ∃ accepted t line rest, ts = accepted ++ (t, line) :: rest ∧
        (∀ s ∈ accepted, ∃ w, Word.read s.1 = .ok w) ∧ (∃ r, Word.read t = .error r) ∧
        e = .dumpWord t line := by
  constructor
  · intro h
    induction ts with
    | nil => cases h
    | cons t ts ih =>
      obtain ⟨t, line⟩ := t
      simp only [readNumbered] at h
      cases hw : Word.read t with
      | error r =>
        rw [hw] at h
        exact ⟨[], t, line, ts, rfl, by simp, ⟨r, hw⟩, (Except.error.inj h).symm⟩
      | ok w =>
        cases hr : readNumbered ts with
        | ok vs => simp [hw, hr] at h
        | error e' =>
          obtain rfl : e' = e := by simpa [hw, hr] using h
          obtain ⟨accepted, t', line', rest, rfl, hall, hbad, he⟩ := ih hr
          exact ⟨(t, line) :: accepted, t', line', rest, rfl,
            List.forall_mem_cons.2 ⟨⟨w, hw⟩, hall⟩, hbad, he⟩
  · rintro ⟨accepted, t, line, rest, rfl, hall, ⟨r, hr⟩, rfl⟩
    obtain ⟨ws, hws⟩ := exists_readNumbered_eq_ok_iff.2 hall
    rw [readNumbered_append, hws]
    simp only [readNumbered, hr, followedBy]

theorem read_eq_ok {text : List Char} {ws : List Word}
    (h : (words text).map Word.read = ws.map .ok) : read text = .ok ws := by
  rw [read, readLines_eq, readNumbered_eq_ok_iff, ← h, words_eq 1, List.map_map]
  rfl

end Dump

end TaggedHeap
