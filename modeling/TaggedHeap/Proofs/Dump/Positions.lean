import TaggedHeap.Proofs.Dump.Tokens

/-!
# Where the tokens of a dump stand

A token is a longest run of characters that are neither blanks nor number signs, outside of
comments. Where it stands is told by the text in front of it, and so is its line, by the line feeds
in there.
Reading looks at the tokens in the order of the text, so it stops at the first one that is no word,
and a dump behind another one is read as if it stood alone, but for its lines.
-/

namespace TaggedHeap.Dump

/-! ## Tokens in a text -/

/-- Every comment that was begun has ended with its line. -/
def Uncommented (text : List Char) : Prop :=
  ∀ before note, text = before ++ '#' :: note → '\n' ∈ note

theorem uncommented_nil : Uncommented [] := by
  intro before note h
  simp at h

theorem Uncommented.append {text cs : List Char} (h : Uncommented text) (hcs : '#' ∉ cs) :
    Uncommented (text ++ cs) := by
  intro before note he
  rcases List.append_eq_append_iff.1 he with ⟨us, rfl, hus⟩ | ⟨us, rfl, hus⟩
  · exact absurd (hus ▸ List.mem_append_right us (List.mem_cons_self ..)) hcs
  · cases us with
    | nil =>
      rw [List.nil_append] at hus
      exact absurd (hus ▸ List.mem_cons_self ..) hcs
    | cons c us =>
      obtain ⟨rfl, rfl⟩ := List.cons.inj hus
      exact List.mem_append_left _ (h before us rfl)

theorem uncommented_newline (text : List Char) : Uncommented (text ++ ['\n']) := by
  intro before note he
  rcases List.eq_nil_or_concat note with rfl | ⟨us, c, rfl⟩
  · have hlast := (List.append_inj' he rfl).2
    simp at hlast
  · rw [List.concat_eq_append, ← List.cons_append, ← List.append_assoc] at he
    obtain rfl : '\n' = c := by simpa using (List.append_inj' he rfl).2
    simp

/-- The token stands in the text behind the characters `before`. -/
structure Occurs (text before t : List Char) : Prop where
  split : ∃ after, text = before ++ (t ++ after) ∧ ∀ c ∈ after.head?, ¬ Inner c
  ne_nil : t ≠ []
  inner : ∀ c ∈ t, Inner c
  starts : ∀ c ∈ before.getLast?, ¬ Inner c
  uncommented : Uncommented before

/-- A run that goes on to the end is no longer than another one from the same place. -/
theorem eq_of_maximal {t t' after after' : List Char} (h : t ++ after = t' ++ after')
    (ht : ∀ c ∈ t, Inner c) (ht' : ∀ c ∈ t', Inner c) (hafter : ∀ c ∈ after.head?, ¬ Inner c)
    (hafter' : ∀ c ∈ after'.head?, ¬ Inner c) : t = t' := by
  rcases List.append_eq_append_iff.1 h with ⟨us, rfl, hus⟩ | ⟨us, rfl, hus⟩
  · cases us with
    | nil => exact (List.append_nil t).symm
    | cons c us =>
      subst hus
      exact absurd (ht' c (by simp)) (hafter c rfl)
  · cases us with
    | nil => exact List.append_nil t'
    | cons c us =>
      subst hus
      exact absurd (ht c (by simp)) (hafter' c rfl)

namespace Occurs

variable {text before t p seg rest : List Char}

theorem unique {t' : List Char} (h : Occurs text before t) (h' : Occurs text before t') :
    t = t' := by
  obtain ⟨after, rfl, hafter⟩ := h.split
  obtain ⟨after', he, hafter'⟩ := h'.split
  exact eq_of_maximal (List.append_cancel_left he) h.inner h'.inner hafter hafter'

theorem inner_head {c : Char} (h : Occurs (p ++ c :: rest) p t) : Inner c := by
  obtain ⟨after, he, -⟩ := h.split
  obtain ⟨d, t, rfl⟩ := List.exists_cons_of_ne_nil h.ne_nil
  obtain ⟨rfl, -⟩ := List.cons.inj (List.append_cancel_left he)
  exact h.inner c (List.mem_cons_self ..)

/-- A token that does not stand in front of a segment stands in it or behind it. -/
theorem in_or_behind (h : Occurs (p ++ (seg ++ rest)) before t) (hp : p.length ≤ before.length) :
    (∃ us vs, seg = us ++ vs ∧ vs ≠ [] ∧ before = p ++ us) ∨
      (p ++ seg).length ≤ before.length := by
  obtain ⟨after, he, -⟩ := h.split
  obtain ⟨us, rfl⟩ : p <+: before :=
    List.prefix_of_prefix_length_le (List.prefix_append p _) ⟨_, he.symm⟩ hp
  rw [List.append_assoc] at he
  rcases List.append_eq_append_iff.1 (List.append_cancel_left he) with
    ⟨vs, rfl, -⟩ | ⟨vs, rfl, -⟩
  · right
    simp only [List.length_append]
    omega
  · cases vs with
    | nil => exact .inr (by simp)
    | cons c vs => exact .inl ⟨us, c :: vs, rfl, by simp, rfl⟩

end Occurs

/-! ## The tokens in their order -/

/-- The tokens of the text that do not stand in front of the end of `p`, in their order. -/
structure Located (text p : List Char) (occ : List (List Char × List Char)) : Prop where
  mem_iff : ∀ before t, (before, t) ∈ occ ↔ Occurs text before t ∧ p.length ≤ before.length
  ordered : occ.Pairwise fun q r => q.1.length < r.1.length

theorem located_end (text : List Char) : Located text text [] := by
  refine ⟨fun before t => iff_of_false List.not_mem_nil ?_, List.Pairwise.nil⟩
  rintro ⟨h, hlen⟩
  obtain ⟨after, rfl, -⟩ := h.split
  have hpos := List.length_pos_iff.2 h.ne_nil
  simp only [List.length_append] at hlen
  omega

namespace Located

variable {p seg rest : List Char} {occ : List (List Char × List Char)}

/-- No token stands in the segment. -/
theorem skip (h : Located (p ++ (seg ++ rest)) (p ++ seg) occ)
    (hno : ∀ us vs t, seg = us ++ vs → vs ≠ [] → ¬ Occurs (p ++ (seg ++ rest)) (p ++ us) t) :
    Located (p ++ (seg ++ rest)) p occ := by
  refine ⟨fun before t => (h.mem_iff before t).trans ⟨fun ⟨ho, hlen⟩ => ⟨ho, ?_⟩, ?_⟩, h.ordered⟩
  · simp only [List.length_append] at hlen
    omega
  · rintro ⟨ho, hlen⟩
    rcases ho.in_or_behind hlen with ⟨us, vs, hseg, hvs, rfl⟩ | hbehind
    · exact absurd ho (hno us vs t hseg hvs)
    · exact ⟨ho, hbehind⟩

/-- The segment is a token. -/
theorem cons (h : Located (p ++ (seg ++ rest)) (p ++ seg) occ)
    (hseg : Occurs (p ++ (seg ++ rest)) p seg) :
    Located (p ++ (seg ++ rest)) p ((p, seg) :: occ) := by
  have hpos := List.length_pos_iff.2 hseg.ne_nil
  refine ⟨fun before t => ⟨fun hmem => ?_, ?_⟩, List.pairwise_cons.2 ⟨?_, h.ordered⟩⟩
  · rcases List.mem_cons.1 hmem with he | hmem
    · obtain ⟨rfl, rfl⟩ := Prod.mk.inj he
      exact ⟨hseg, Nat.le_refl _⟩
    · obtain ⟨ho, hlen⟩ := (h.mem_iff before t).1 hmem
      simp only [List.length_append] at hlen
      exact ⟨ho, by omega⟩
  · rintro ⟨ho, hlen⟩
    rcases ho.in_or_behind hlen with ⟨us, vs, hsplit, hvs, rfl⟩ | hbehind
    · rcases List.eq_nil_or_concat us with rfl | ⟨us, c, rfl⟩
      · rw [List.append_nil] at ho ⊢
        rw [ho.unique hseg]
        exact List.mem_cons_self ..
      · -- The character in front would belong to the token.
        have hc : Inner c := hseg.inner c (hsplit ▸ by simp)
        exact absurd hc (ho.starts c (by simp))
    · exact List.mem_cons_of_mem _ ((h.mem_iff before t).2 ⟨ho, hbehind⟩)
  · rintro ⟨before, t⟩ hmem
    obtain ⟨-, hlen⟩ := (h.mem_iff before t).1 hmem
    simp only [List.length_append] at hlen
    change p.length < before.length
    omega

/-! ## One step along the text -/

theorem blank {c : Char} (hc : isBlank c = true)
    (h : Located (p ++ (c :: rest)) (p ++ [c]) occ) : Located (p ++ (c :: rest)) p occ := by
  refine @skip p [c] rest occ h fun us vs t hsplit hvs ho => ?_
  cases us with
  | cons d us =>
    obtain ⟨-, hnil⟩ := List.cons.inj hsplit
    exact hvs (List.append_eq_nil_iff.1 hnil.symm).2
  | nil =>
    rw [List.append_nil] at ho
    have hinner := ho.inner_head
    rw [Inner, hc] at hinner
    exact absurd hinner.1 (by decide)

/-- Inside of a comment there is an open comment in front. -/
theorem comment (hseg : ∀ us vs, seg = us ++ vs → vs ≠ [] → '\n' ∉ us)
    (h : Located (p ++ ('#' :: seg ++ rest)) (p ++ '#' :: seg) occ) :
    Located (p ++ ('#' :: seg ++ rest)) p occ := by
  refine h.skip fun us vs t hsplit hvs ho => ?_
  cases us with
  | nil =>
    rw [List.append_nil] at ho
    exact absurd rfl ho.inner_head.2
  | cons d us =>
    obtain ⟨rfl, htail⟩ := List.cons.inj hsplit
    exact hseg us vs htail hvs (ho.uncommented p us rfl)

end Located

/-! ## Any text -/

/-- A text as a walk along it passes its characters. -/
inductive Layout : List Char → Prop where
  | nil : Layout []
  | blank {c : Char} {rest : List Char} : isBlank c = true → Layout rest → Layout (c :: rest)
  | comment {note rest : List Char} : '\n' ∉ note → Layout rest →
      Layout ('#' :: note ++ '\n' :: rest)
  | lastComment {note : List Char} : '\n' ∉ note → Layout ('#' :: note)
  | token {s rest : List Char} : s ≠ [] → (∀ c ∈ s, Inner c) → (∀ c ∈ rest.head?, ¬ Inner c) →
      Layout rest → Layout (s ++ rest)

theorem exists_run (cs : List Char) :
    ∃ s rest, cs = s ++ rest ∧ (∀ c ∈ s, Inner c) ∧ ∀ c ∈ rest.head?, ¬ Inner c := by
  refine ⟨cs.takeWhile (decide <| Inner ·), cs.dropWhile (decide <| Inner ·),
    List.takeWhile_append_dropWhile.symm, fun c hc => ?_, fun c hc => ?_⟩
  · simpa using List.all_eq_true.1 List.all_takeWhile c hc
  · have hnot := List.head?_dropWhile_not (decide <| Inner ·) cs
    rw [Option.mem_def.1 hc] at hnot
    simpa using hnot

theorem layout (text : List Char) : Layout text := by
  induction hn : text.length using Nat.strongRecOn generalizing text with
  | ind n ih =>
    subst hn
    cases text with
    | nil => exact .nil
    | cons c cs =>
      by_cases hblank : isBlank c = true
      case pos => exact .blank hblank (ih _ (Nat.lt_succ_self _) cs rfl)
      by_cases hhash : c = '#'
      case pos =>
        subst hhash
        by_cases hnl : '\n' ∈ cs
        · obtain ⟨note, rest, rfl, hnote⟩ := List.eq_append_cons_of_mem hnl
          exact .comment hnote
            (ih _ (by simp only [List.length_cons, List.length_append]; omega) rest rfl)
        · exact .lastComment hnl
      obtain ⟨s, rest, rfl, hs, hrest⟩ := exists_run cs
      have hc : Inner c := ⟨Bool.eq_false_iff.2 hblank, hhash⟩
      rw [← List.cons_append]
      exact .token (by simp) (List.forall_mem_cons.2 ⟨hc, hs⟩) hrest
        (ih _ (by simp only [List.length_cons, List.length_append]; omega) rest rfl)

/-- In front of the end of a line there is no line feed of it. -/
theorem not_mem_of_append_eq {note us vs : List Char} (hnote : '\n' ∉ note)
    (h : note ++ ['\n'] = us ++ vs) (hvs : vs ≠ []) : '\n' ∉ us := by
  rcases List.eq_nil_or_concat vs with rfl | ⟨ws, d, rfl⟩
  · exact absurd rfl hvs
  · rw [List.concat_eq_append, ← List.append_assoc] at h
    rw [(List.append_inj' h rfl).1, List.mem_append, not_or] at hnote
    exact hnote.1

/-- A token with the number of its line. -/
def lined (q : List Char × List Char) : List Char × Nat := (q.2, 1 + q.1.count '\n')

/-- The tokens that reading takes from the rest of a text are the ones that stand there. -/
theorem exists_located {p rest : List Char} (hl : Layout rest) (hp : Uncommented p)
    (happart : (∀ c ∈ p.getLast?, ¬ Inner c) ∨ ∀ c ∈ rest.head?, ¬ Inner c) :
    ∃ occ, Located (p ++ rest) p occ ∧
      numbered (1 + p.count '\n') (lines rest) = occ.map lined := by
  induction hl generalizing p with
  | nil =>
    refine ⟨[], ?_, rfl⟩
    rw [List.append_nil]
    exact located_end p
  | @blank c rest hc _ ih =>
    have hhash : '#' ∉ [c] := by
      rw [List.mem_singleton]
      rintro rfl
      exact absurd hc (by decide)
    have hlast : ∀ d ∈ (p ++ [c]).getLast?, ¬ Inner d := by simp [Inner, hc]
    obtain ⟨occ, hocc, hnum⟩ := ih (hp.append hhash) (.inl hlast)
    rw [List.append_assoc] at hocc
    refine ⟨occ, hocc.blank hc, ?_⟩
    by_cases hnl : c = '\n'
    · subst hnl
      rw [numbered_newline, ← hnum]
      simp [Nat.add_assoc]
    · rw [numbered_blank _ hc hnl, ← hnum]
      simp [hnl]
  | @comment note rest hnote _ ih =>
    have hshift : p ++ '#' :: (note ++ ['\n']) = p ++ '#' :: note ++ ['\n'] := by simp
    have hlast : ∀ d ∈ (p ++ '#' :: (note ++ ['\n'])).getLast?, ¬ Inner d := by
      rw [hshift, List.getLast?_concat]
      intro d hd
      obtain rfl := Option.some.inj hd
      decide
    obtain ⟨occ, hocc, hnum⟩ := ih (hshift ▸ uncommented_newline _) (.inl hlast)
    have htext : p ++ '#' :: (note ++ ['\n']) ++ rest = p ++ ('#' :: (note ++ ['\n']) ++ rest) :=
      List.append_assoc ..
    rw [htext] at hocc
    have hcomment := hocc.comment fun us vs hsplit hvs => not_mem_of_append_eq hnote hsplit hvs
    refine ⟨occ, by simpa using hcomment, ?_⟩
    rw [numbered_comment _ hnote, ← hnum]
    simp [List.count_eq_zero.2 hnote, Nat.add_assoc]
  | @lastComment note hnote =>
    have hend : Located (p ++ ('#' :: note ++ [])) (p ++ '#' :: note) [] := by
      rw [List.append_nil]
      exact located_end _
    have hfront : ∀ us vs, note = us ++ vs → vs ≠ [] → '\n' ∉ us := by
      rintro us vs rfl -
      rw [List.mem_append, not_or] at hnote
      exact hnote.1
    have hcomment := hend.comment hfront
    rw [List.append_nil] at hcomment
    exact ⟨[], hcomment, numbered_last_comment _ hnote⟩
  | @token s rest hne hs hrest _ ih =>
    have hhash : '#' ∉ s := fun h => (hs _ h).2 rfl
    have hnl : '\n' ∉ s := fun h => absurd (hs _ h) (by decide)
    have hstarts : ∀ c ∈ p.getLast?, ¬ Inner c := by
      refine happart.resolve_right fun h => ?_
      obtain ⟨c, s, rfl⟩ := List.exists_cons_of_ne_nil hne
      exact h c rfl (hs c (List.mem_cons_self ..))
    obtain ⟨occ, hocc, hnum⟩ := ih (hp.append hhash) (.inr hrest)
    rw [List.append_assoc] at hocc
    refine ⟨(p, s) :: occ, hocc.cons ⟨⟨rest, rfl, hrest⟩, hne, hs, hstarts, hp⟩, ?_⟩
    rw [List.count_append, List.count_eq_zero.2 hnl] at hnum
    rw [numbered_append _ hne hs hrest, List.map_cons, ← hnum]
    rfl

/-! ## Lines of two texts -/

theorem length_lines (text : List Char) : (lines text).length = 1 + text.count '\n' := by
  induction text with
  | nil => rfl
  | cons c cs ih =>
    by_cases hc : c = '\n'
    · subst hc
      change (lines cs).length + 1 = _
      rw [ih, List.count_cons_self, Nat.add_assoc]
    · obtain ⟨first, rest, hcs⟩ := exists_lines_eq_cons cs
      rw [lines_cons hc hcs, List.length_cons, List.count_cons_of_ne hc, ← ih, hcs,
        List.length_cons]

theorem numbered_append_lines (line : Nat) (ls ms : List (List Char)) :
    numbered line (ls ++ ms) = numbered line ls ++ numbered (line + ls.length) ms := by
  induction ls generalizing line with
  | nil => rfl
  | cons l ls ih =>
    rw [List.cons_append, numbered, numbered, ih, List.append_assoc, List.length_cons,
      Nat.add_right_comm, Nat.add_assoc]

theorem numbered_add (line d : Nat) (ls : List (List Char)) :
    numbered (line + d) ls = (numbered line ls).map fun t => (t.1, t.2 + d) := by
  induction ls generalizing line with
  | nil => rfl
  | cons l ls ih =>
    rw [numbered, numbered, Nat.add_right_comm, ih, List.map_append, List.map_map]
    rfl

/-- The error of the same token so many lines further down. -/
def later (d : Nat) : ReadError → ReadError
  | .dumpWord t line => .dumpWord t (line + d)
  | e => e

theorem readNumbered_later (d : Nat) (ts : List (List Char × Nat)) :
    readNumbered (ts.map fun t => (t.1, t.2 + d)) = (readNumbered ts).mapError (later d) := by
  induction ts with
  | nil => rfl
  | cons t ts ih =>
    simp only [List.map_cons, readNumbered, ih]
    cases Word.read t.1 with
    | error e => rfl
    | ok w => cases readNumbered ts <;> rfl

/-- The second text is read behind the first one. -/
theorem read_append_newline (a b : List Char) :
    read (a ++ '\n' :: b) =
      followedBy (read a) ((read b).mapError (later (1 + a.count '\n'))) := by
  have hlines : lines (a ++ '\n' :: b) = lines a ++ lines b := pieces_append_cons rfl a b
  rw [read, read, read, readLines_eq, readLines_eq, readLines_eq, hlines, numbered_append_lines,
    length_lines, numbered_add, readNumbered_append, readNumbered_later]

theorem readNumbered_lined_eq_error_iff {occ : List (List Char × List Char)} {e : ReadError} :
    readNumbered (occ.map lined) = .error e ↔
      ∃ accepted before t rest, occ = accepted ++ (before, t) :: rest ∧
        (∀ q ∈ accepted, ∃ w, Word.read q.2 = .ok w) ∧ (∃ r, Word.read t = .error r) ∧
        e = .dumpWord t (1 + before.count '\n') := by
  rw [readNumbered_eq_error_iff]
  constructor
  · rintro ⟨accepted, t, line, rest, hsplit, hall, hbad, rfl⟩
    obtain ⟨firsts, others, rfl, rfl, hothers⟩ := List.map_eq_append_iff.1 hsplit
    obtain ⟨⟨before, t'⟩, behind, rfl, hq, rfl⟩ := List.map_eq_cons_iff.1 hothers
    obtain ⟨rfl, rfl⟩ := Prod.mk.inj hq
    exact ⟨firsts, before, t', behind, rfl, fun q hq => hall _ (List.mem_map_of_mem hq), hbad, rfl⟩
  · rintro ⟨accepted, before, t, rest, rfl, hall, hbad, rfl⟩
    refine ⟨accepted.map lined, t, _, rest.map lined, List.map_append.trans rfl, ?_, hbad, rfl⟩
    rintro s hs
    obtain ⟨q, hq, rfl⟩ := List.mem_map.1 hs
    exact hall q hq

/-- A text is read by reading its tokens in their order: it is read if all of them are words, and
otherwise the first that is none is told with its line, which has the number of line feeds in front
of it, and one. So a text behind another one and a line feed is read after it, and the lines of its
errors go on from there. -/
theorem read_in_order :
    (∀ text, ∃ occ : List (List Char × List Char),
      (∀ before t, (before, t) ∈ occ ↔ Occurs text before t) ∧
      occ.Pairwise (fun q r => q.1.length < r.1.length) ∧
      (∀ ws, read text = .ok ws ↔ occ.map (fun q => Word.read q.2) = ws.map .ok) ∧
      ∀ e, read text = .error e ↔
        ∃ accepted before t rest, occ = accepted ++ (before, t) :: rest ∧
          (∀ q ∈ accepted, ∃ w, Word.read q.2 = .ok w) ∧ (∃ r, Word.read t = .error r) ∧
          e = .dumpWord t (1 + before.count '\n')) ∧
    ∀ a b,
      (∀ e, read a = .error e → read (a ++ '\n' :: b) = .error e) ∧
      (∀ ws vs, read a = .ok ws → read b = .ok vs → read (a ++ '\n' :: b) = .ok (ws ++ vs)) ∧
      ∀ ws t line, read a = .ok ws → read b = .error (.dumpWord t line) →
        read (a ++ '\n' :: b) = .error (.dumpWord t (line + (1 + a.count '\n'))) := by
  refine ⟨fun text => ?_, fun a b => ⟨fun e ha => ?_, fun ws vs ha hb => ?_,
    fun ws t line ha hb => ?_⟩⟩
  · obtain ⟨occ, hocc, hnum⟩ := exists_located (layout text) uncommented_nil (.inl (by simp))
    have hread : read text = readNumbered (occ.map lined) := by
      rw [read, readLines_eq, ← hnum]
      rfl
    refine ⟨occ, fun before t => ?_, hocc.ordered, fun ws => ?_, fun e => ?_⟩
    · rw [hocc.mem_iff]
      exact and_iff_left (Nat.zero_le _)
    · rw [hread, readNumbered_eq_ok_iff, List.map_map]
      rfl
    · rw [hread]
      exact readNumbered_lined_eq_error_iff
  · rw [read_append_newline, ha]
    rfl
  · rw [read_append_newline, ha, hb]
    rfl
  · rw [read_append_newline, ha, hb]
    rfl

/-- A carriage return parts tokens and not lines, and a comment may follow a token at once. -/
example : read "# one\n0x2\r3# nope\r\n4\rfive six".toList =
    .error (.dumpWord "five".toList 3) := by
  rfl

end TaggedHeap.Dump
