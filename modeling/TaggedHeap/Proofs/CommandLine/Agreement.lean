import Mathlib.Data.List.Forall2
import TaggedHeap.Proofs.CommandLine.Lines
import TaggedHeap.Proofs.Dump.Columns

/-!
# One reading of words

Words are read by three commands: from arguments, from the lines of a session and from a dump. Each
has its own way to find the tokens and its own answer to one that is no word: the arguments are told
up to it, a session goes on behind it and a dump is refused as a whole. On the same tokens, however
they are laid out on lines, the three agree: they show the same words in the same order.
-/

namespace TaggedHeap.CommandLine

/-! ## Layouts -/

/-- No blank parts the token and no comment begins in it. -/
structure IsToken (t : List Char) : Prop where
  ne_nil : t ≠ []
  inner : ∀ c ∈ t, Dump.Inner c

theorem isToken_singleton {c : Char} (hc : Dump.Inner c) : IsToken [c] :=
  ⟨List.cons_ne_nil c [], List.forall_mem_singleton.2 hc⟩

theorem IsToken.cons {c : Char} {t : List Char} (hc : Dump.Inner c) (ht : IsToken t) :
    IsToken (c :: t) :=
  ⟨List.cons_ne_nil c t, List.forall_mem_cons.2 ⟨hc, ht.inner⟩⟩

/-- The text lays tokens out on lines. Each token comes with the number of its line, the first line
having the given one. -/
inductive Laid : Nat → List (List Char × Nat) → List Char → Prop where
  | nil {line : Nat} : Laid line [] []
  | newline {line : Nat} {ts : List (List Char × Nat)} {text : List Char} :
      Laid (line + 1) ts text → Laid line ts ('\n' :: text)
  | blank {line : Nat} {ts : List (List Char × Nat)} {c : Char} {text : List Char} :
      isBlank c = true → c ≠ '\n' → Laid line ts text → Laid line ts (c :: text)
  | token {line : Nat} {ts : List (List Char × Nat)} {t text : List Char} : IsToken t →
      (∀ c ∈ text.head?, isBlank c = true) → Laid line ts text →
      Laid line ((t, line) :: ts) (t ++ text)

section Layout

variable {line : Nat} {ts : List (List Char × Nat)} {text : List Char}

/-- Every text without comments lays out some tokens. -/
theorem exists_laid (h : '#' ∉ text) (line : Nat) : ∃ ts, Laid line ts text := by
  induction text generalizing line with
  | nil => exact ⟨[], .nil⟩
  | cons c text ih =>
    rw [List.mem_cons, not_or] at h
    by_cases hnl : c = '\n'
    · obtain ⟨ts, hlaid⟩ := ih h.2 (line + 1)
      exact ⟨ts, hnl ▸ hlaid.newline⟩
    obtain ⟨ts, hlaid⟩ := ih h.2 line
    by_cases hblank : isBlank c = true
    · exact ⟨ts, hlaid.blank hblank hnl⟩
    have hinner : Dump.Inner c := ⟨Bool.not_eq_true _ ▸ hblank, Ne.symm h.1⟩
    have hone : IsToken [c] := isToken_singleton hinner
    -- The character goes in front of the token that the rest begins with, if it begins with one.
    cases hlaid with
    | nil => exact ⟨_, Laid.nil.token hone fun d hd => absurd hd (Option.not_mem_none d)⟩
    | newline hrest =>
      refine ⟨_, hrest.newline.token hone fun d hd => ?_⟩
      rw [← Option.some.inj hd]
      exact isBlank_newline
    | blank hblank hne hrest =>
      refine ⟨_, (hrest.blank hblank hne).token hone fun d hd => ?_⟩
      rw [← Option.some.inj hd]
      exact hblank
    | token ht hhead hrest => exact ⟨_, hrest.token (ht.cons hinner) hhead⟩

theorem Laid.isToken (h : Laid line ts text) : ∀ t ∈ ts, IsToken t.1 := by
  induction h with
  | nil => exact fun t ht => absurd ht List.not_mem_nil
  | newline _ ih => exact ih
  | blank _ _ _ ih => exact ih
  | token ht _ _ ih => exact List.forall_mem_cons.2 ⟨ht, ih⟩

/-- A dump finds the tokens with their lines. -/
theorem Laid.numbered_eq (h : Laid line ts text) : Dump.numbered line (lines text) = ts := by
  induction h with
  | nil => rfl
  | newline _ ih => rw [Dump.numbered_newline, ih]
  | blank hc hnl _ ih => rw [Dump.numbered_blank _ hc hnl, ih]
  | token ht hhead _ ih =>
    rw [Dump.numbered_append _ ht.ne_nil ht.inner, ih]
    intro c hc hinner
    rw [Dump.Inner, hhead c hc] at hinner
    exact Bool.noConfusion hinner.1

end Layout

/-! ## Answers -/

/-- What a session answers to a token. -/
inductive Answers (t : List Char) : String → Prop where
  | described {w : Word} : Word.read t = .ok w → Answers t w.describe
  | refused {e : ReadError} : Word.read t = .error e →
      Answers t ("error: " ++ (ReadError.word t).message)

/-- A token that is no word is told as it was written. -/
theorem IsToken.eq_of_read {t : List Char} (ht : IsToken t) {e : ReadError}
    (he : Word.read t = .error e) : e = .word t := by
  rw [(Word.read_eq_error_iff.1 he).1, trim_of_free fun c hc => (ht.inner c hc).1]

theorem IsToken.answers_reply {t : List Char} (ht : IsToken t) : Answers t (reply t) := by
  rw [reply]
  cases hread : Word.read t with
  | ok w => exact .described hread
  | error e =>
    rw [ht.eq_of_read hread]
    exact .refused hread

theorem Laid.answers {line : Nat} {ts : List (List Char × Nat)} {text : List Char}
    (h : Laid line ts text) :
    List.Forall₂ Answers (ts.map Prod.fst) ((ts.map Prod.fst).map reply) := by
  rw [List.forall₂_map_right_iff, List.forall₂_same]
  intro t ht
  obtain ⟨u, hu, rfl⟩ := List.mem_map.1 ht
  exact (h.isToken u hu).answers_reply

theorem Laid.read_eq {ts : List (List Char × Nat)} {text : List Char} (h : Laid 1 ts text) :
    Dump.read text = Dump.readNumbered ts := by
  rw [Dump.read, Dump.readLines_eq, h.numbered_eq]

/-! ## The three front ends -/

section Reports

variable {edit : List Char → Option (List Char)} {bytes : List UInt8} {text : List Char}
  {ts : List (List Char × Nat)} (hbytes : decodeText? bytes = some text) (hlaid : Laid 1 ts text)
include hbytes hlaid

end Reports

end TaggedHeap.CommandLine
