import TaggedHeap.Proofs.Dump.Listing
import TaggedHeap.Proofs.Dump.Tally
import TaggedHeap.Proofs.Word.Tagging

/-!
# Summaries as histograms

A summary is filled by counting one word after the other, in three counters of which two are
tallies. Each counter holds how many of the words it is about, so the counters agree with each other
and do not depend on the order of the words. The text of a summary lists the counts in one order, in
whatever order they are kept, and tells all of them, so the text stands for the counts.
-/

namespace TaggedHeap

namespace Word

/-- The uid of the header that the word decodes to. -/
def uid? (w : Word) : Option Nat :=
  match w.decode with
  | .header h => some h.uid
  | _ => none

/-- The word decodes to no header, although it has the tag of one. -/
def isCorrupt (w : Word) : Bool :=
  match w.decode with
  | .corrupt _ => true
  | _ => false

/-- A word with the tag of headers has either a uid or is corrupt. -/
theorem count_header (w : Word) :
    (if w.kind = .header then 1 else 0) =
      w.uid?.toList.length + if w.isCorrupt then 1 else 0 := by
  unfold uid? isCorrupt decode
  cases w.kind with
  | pointer | unboxed | dwordPointer => rfl
  | header =>
    cases Header.ofWord? w with
    | some h => rfl
    | none => rfl

end Word

namespace Summary

section Counts

variable (ws : List Word)

/-- How many of the words are of the kind. -/
def kindCount (k : Kind) : Nat := ws.countP fun w => w.kind = k

/-- How many of the words decode to a header of the uid. -/
def uidCount (u : Nat) : Nat := ws.countP fun w => w.uid? = some u

/-- How many of the words are corrupt headers. -/
def corruptCount : Nat := ws.countP Word.isCorrupt

end Counts

theorem add_eq (s : Summary) (w : Word) :
    s.add w = {
      words := s.words + 1
      kindTally := s.kindTally.add w.kind
      uidTally := w.uid?.toList.foldl (fun t u => t.add u) s.uidTally
      corrupt := s.corrupt + if w.isCorrupt then 1 else 0 } := by
  unfold add Word.uid? Word.isCorrupt
  cases w.decode <;> rfl

/-- Every counter has counted what it is about, one word after the other. -/
theorem ofList_eq (ws : List Word) :
    ofList ws = {
      words := ws.length
      kindTally := Tally.ofList (ws.map Word.kind)
      uidTally := Tally.ofList (ws.filterMap Word.uid?)
      corrupt := corruptCount ws } := by
  induction ws using List.reverseRecOn with
  | nil => rfl
  | append_singleton ws w ih =>
    have hadd : ofList (ws ++ [w]) = (ofList ws).add w := by
      rw [ofList, List.foldl_append]
      rfl
    rw [hadd, ih, add_eq]
    congr 1
    · simp
    · rw [List.map_append, List.map_singleton, Tally.ofList_append_singleton]
    · rw [List.filterMap_append, Tally.ofList_append]
      cases hu : w.uid? <;> simp [hu]
    · simp [corruptCount, List.countP_append]

theorem count_kinds (ws : List Word) (k : Kind) : (ws.map Word.kind).count k = kindCount ws k := by
  rw [List.count, List.countP_map]
  rfl

theorem count_uids (ws : List Word) (u : Nat) :
    (ws.filterMap Word.uid?).count u = uidCount ws u := by
  rw [List.count, List.countP_filterMap]
  congr 1
  funext w
  cases w.uid? <;> simp [beq_eq_decide]

theorem number_injective : Function.Injective Kind.number := by
  intro j k
  cases j <;> cases k <;> decide

theorem kindCount_header (ws : List Word) :
    kindCount ws .header = (ws.filterMap Word.uid?).length + corruptCount ws := by
  induction ws with
  | nil => rfl
  | cons w ws ih =>
    have hw := w.count_header
    have hlen : (w :: ws).filterMap Word.uid? = w.uid?.toList ++ ws.filterMap Word.uid? := by
      cases hu : w.uid? <;> simp [hu]
    rw [hlen, List.length_append]
    simp only [kindCount, corruptCount, List.countP_cons, decide_eq_true_eq] at ih ⊢
    omega

/-- The summary counts the words. -/
structure Counts (ws : List Word) (s : Summary) : Prop where
  words : s.words = ws.length
  keyed_kinds : s.kindTally.Keyed
  kinds : ∀ k, s.kindTally.lookup k = if kindCount ws k = 0 then none else some (kindCount ws k)
  keyed_uids : s.uidTally.Keyed
  uids : ∀ u, s.uidTally.lookup u = if uidCount ws u = 0 then none else some (uidCount ws u)
  corrupt : s.corrupt = corruptCount ws
  total_kinds : s.kindTally.total = s.words
  total_uids : s.uidTally.total + s.corrupt = kindCount ws .header

theorem counts_ofList (ws : List Word) : Counts ws (ofList ws) := by
  rw [ofList_eq]
  constructor
  case words => rfl
  case keyed_kinds => exact Tally.keyed_ofList _
  case kinds =>
    intro k
    rw [← count_kinds]
    exact Tally.lookup_ofList _ k
  case keyed_uids => exact Tally.keyed_ofList _
  case uids =>
    intro u
    rw [← count_uids]
    exact Tally.lookup_ofList _ u
  case corrupt => rfl
  case total_kinds => rw [Tally.total_ofList, List.length_map]
  case total_uids => rw [Tally.total_ofList, kindCount_header]

theorem Counts.count_kind {ws : List Word} {s : Summary} (h : Counts ws s) (k : Kind) :
    s.kindTally.count k = kindCount ws k := by
  rw [Tally.count, h.kinds]
  split
  case isTrue h0 => exact h0.symm
  case isFalse => rfl

theorem Counts.count_uid {ws : List Word} {s : Summary} (h : Counts ws s) (u : Nat) :
    s.uidTally.count u = uidCount ws u := by
  rw [Tally.count, h.uids]
  split
  case isTrue h0 => exact h0.symm
  case isFalse => rfl

theorem Counts.kinds_eq_iff {vs ws : List Word} {s t : Summary} (hs : Counts vs s)
    (ht : Counts ws t) : s.kinds = t.kinds ↔ ∀ k, kindCount vs k = kindCount ws k := by
  rw [Summary.kinds, Summary.kinds, hs.keyed_kinds.sorted_eq_iff number_injective ht.keyed_kinds]
  constructor
  · intro h k
    rw [← hs.count_kind, ← ht.count_kind, Tally.count, h, Tally.count]
  · intro h k
    rw [hs.kinds, ht.kinds, h]

theorem Counts.uids_eq_iff {vs ws : List Word} {s t : Summary} (hs : Counts vs s)
    (ht : Counts ws t) : s.uids = t.uids ↔ ∀ u, uidCount vs u = uidCount ws u := by
  rw [Summary.uids, Summary.uids, hs.keyed_uids.sorted_eq_iff Function.injective_id ht.keyed_uids]
  constructor
  · intro h u
    rw [← hs.count_uid, ← ht.count_uid, Tally.count, h, Tally.count]
  · intro h u
    rw [hs.uids, ht.uids, h]

theorem counts_of_perm {vs ws : List Word} (h : vs.Perm ws) :
    (∀ k, kindCount vs k = kindCount ws k) ∧ corruptCount vs = corruptCount ws ∧
      ∀ u, uidCount vs u = uidCount ws u :=
  ⟨fun _ => h.countP_eq _, h.countP_eq _, fun _ => h.countP_eq _⟩

/-! ## What is listed -/

/-- The rows of the kinds that were seen, in the order of their numbers, of the corrupt headers if
there are any, and of the given uids. -/
def countRows (ws : List Word) (us : List Nat) : List Row :=
  (Kind.all.filter fun k => kindCount ws k ≠ 0).map (fun k => .kind k (kindCount ws k)) ++
    (if corruptCount ws = 0 then [] else [.corrupt (corruptCount ws)]) ++
    us.map fun u => .uid u (uidCount ws u)

theorem kinds_eq (ws : List Word) :
    (ofList ws).kinds =
      (Kind.all.filter fun k => kindCount ws k ≠ 0).map fun k => (k, kindCount ws k) := by
  have hcounts := counts_ofList ws
  have hall : Kind.all.Pairwise fun j k => j.number < k.number := by decide
  apply hcounts.keyed_kinds.sorted_eq_map number_injective (hall.filter _) _ hcounts.kinds
  intro k
  have hk : k ∈ Kind.all := by cases k <;> decide
  simp [List.mem_filter, hk]

theorem uids_eq (ws : List Word) :
    ∃ us : List Nat, us.Pairwise (· < ·) ∧ (∀ u, u ∈ us ↔ uidCount ws u ≠ 0) ∧
      (ofList ws).uids = us.map fun u => (u, uidCount ws u) := by
  have hcounts := counts_ofList ws
  have hordered : ((ofList ws).uids.map Prod.fst).Pairwise (· < ·) :=
    List.pairwise_map.2 (hcounts.keyed_uids.ordered_sorted Function.injective_id)
  have hmem (u : Nat) : u ∈ (ofList ws).uids.map Prod.fst ↔ uidCount ws u ≠ 0 := by
    rw [uids, ((Tally.sorted_perm id _).map Prod.fst).mem_iff, ofList_eq, ← count_uids]
    exact Tally.mem_keys_ofList _ u
  exact ⟨_, hordered, hmem,
    hcounts.keyed_uids.sorted_eq_map Function.injective_id hordered hmem hcounts.uids⟩

/-- The lines that a summary of the words has, given the uids among them. -/
def countLines (ws : List Word) (us : List Nat) : List String :=
  (Numeral.decimal ws.length ++ " words") :: (countRows ws us).map Row.text

theorem listing_ofList (ws : List Word) :
    ∃ us : List Nat, us.Pairwise (· < ·) ∧ (∀ u, u ∈ us ↔ uidCount ws u ≠ 0) ∧
      (ofList ws).listing = countLines ws us := by
  obtain ⟨us, hordered, hmem, huids⟩ := uids_eq ws
  have hrows : (ofList ws).rows = countRows ws us := by
    rw [rows, countRows, kinds_eq, huids, (counts_ofList ws).corrupt, List.map_map, List.map_map]
    by_cases h0 : corruptCount ws = 0
    · simp [h0, Function.comp_def]
    · simp [h0, Nat.pos_of_ne_zero h0, Function.comp_def]
  refine ⟨us, hordered, hmem, ?_⟩
  rw [listing_eq, hrows, (counts_ofList ws).words, countLines]

/-- In whatever order its entries are kept, a summary has the same text. -/
theorem Counts.text_eq_of_perm {ws : List Word} {s t : Summary} (ht : Counts ws t)
    (hwords : s.words = t.words) (hkinds : s.kindTally.Perm t.kindTally)
    (huids : s.uidTally.Perm t.uidTally) (hcorrupt : s.corrupt = t.corrupt) : s.text = t.text := by
  have hk : s.kinds = t.kinds := ht.keyed_kinds.sorted_eq_of_perm number_injective hkinds
  have hu : s.uids = t.uids := ht.keyed_uids.sorted_eq_of_perm Function.injective_id huids
  rw [text, text, listing, listing, hwords, hk, hu, hcorrupt]

theorem text_ofList_eq_iff {vs ws : List Word} :
    (ofList vs).text = (ofList ws).text ↔
      (∀ k, kindCount vs k = kindCount ws k) ∧ corruptCount vs = corruptCount ws ∧
        ∀ u, uidCount vs u = uidCount ws u := by
  have hvs := counts_ofList vs
  have hws := counts_ofList ws
  rw [← hvs.kinds_eq_iff hws, ← hvs.corrupt, ← hws.corrupt, ← hvs.uids_eq_iff hws]
  constructor
  · intro h
    exact (counts_of_text h).2
  · rintro ⟨hk, hcorrupt, hu⟩
    -- The size needs no count of its own, as it is the sum of the kinds.
    have hwords : (ofList vs).words = (ofList ws).words := by
      rw [← hvs.total_kinds, ← hws.total_kinds]
      exact Tally.total_eq_of_sorted_eq hk
    rw [text, text, listing, listing, hwords, hk, hu, hcorrupt]

/-- A summary holds exactly how many words there are of each kind, of each uid and without a header
to them. Its text lists these counts and nothing else, in an order that neither the words nor the
way in which the counts are kept can change. -/
theorem exact_histogram :
    (∀ ws, Counts ws (ofList ws)) ∧
    (∀ ws, ∃ us : List Nat, us.Pairwise (· < ·) ∧ (∀ u, u ∈ us ↔ uidCount ws u ≠ 0) ∧
      (ofList ws).text = String.join ((countLines ws us).map (· ++ "\n"))) ∧
    (∀ ws kindTally uidTally, kindTally.Perm (ofList ws).kindTally →
      uidTally.Perm (ofList ws).uidTally →
      ({ ofList ws with kindTally, uidTally } : Summary).text = (ofList ws).text) ∧
    (∀ vs ws, (ofList vs).text = (ofList ws).text ↔
      (∀ k, kindCount vs k = kindCount ws k) ∧ corruptCount vs = corruptCount ws ∧
        ∀ u, uidCount vs u = uidCount ws u) ∧
    ∀ vs ws : List Word, vs.Perm ws → (ofList vs).text = (ofList ws).text := by
  refine ⟨counts_ofList, ?_, ?_, fun vs ws => text_ofList_eq_iff, ?_⟩
  · intro ws
    obtain ⟨us, hordered, hmem, hlisting⟩ := listing_ofList ws
    exact ⟨us, hordered, hmem, by rw [text, hlisting]⟩
  · intro ws kindTally uidTally hkinds huids
    exact (counts_ofList ws).text_eq_of_perm rfl hkinds huids rfl
  · intro vs ws h
    exact text_ofList_eq_iff.2 (counts_of_perm h)

end Summary

end TaggedHeap
