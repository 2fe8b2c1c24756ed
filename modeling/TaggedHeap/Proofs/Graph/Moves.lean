import Mathlib.Data.List.Forall2
import TaggedHeap.Proofs.Graph.Collection
import TaggedHeap.Proofs.Heap.Copying
import TaggedHeap.Proofs.Heap.Footprint
import TaggedHeap.Proofs.Word.Tagging

/-!
# What a collection does to memory

A collection of roots whose objects are apart gives each object a new block behind all that were
handed out, leaves zeros where it was and changes nothing else. The roots keep their order: those
that are no pointers stay, the others name the copies.
-/

namespace TaggedHeap

namespace HeapObject

/-- The words of all slots, the header in front. -/
def words (o : HeapObject) (m : Memory) : Except Fault (List Word) := do
  m.readMany o.address (← o.slotCount m)

/-- Where the slots lie; there are none without a header. -/
def span (o : HeapObject) (m : Memory) : Span := ⟨o.address, (o.slotCount m).toOption.getD 0⟩

variable {o : HeapObject} {m : Memory} {hd : Header}

theorem span_of_header (h : o.header m = .ok hd) : o.span m = ⟨o.address, hd.layout.slotCount⟩ := by
  rw [span, slotCount_of_header h]
  rfl

theorem read_of_header (h : o.header m = .ok hd) : m.read o.address = .ok hd.toWord := by
  obtain ⟨w, hr, h⟩ := bind_eq_ok_iff.1 h
  split at h
  case h_1 hd' hw =>
    obtain rfl := Except.ok.inj h
    rw [hr, Header.ofWord?_eq_some_iff.1 hw]
  case h_2 => cases h

end HeapObject

namespace Block.IsObject

variable {o : Block} {m : Memory} (ho : o.IsObject) (hh : m.Holds o.start o.words)
include ho hh

theorem slotCount_eq : (HeapObject.mk o.start).slotCount m = .ok o.size := by
  obtain ⟨hd, us, hw, hfit⟩ := ho
  rw [hw] at hh
  rw [HeapObject.slotCount_eq hh, hfit, Block.size, hw]
  rfl

theorem words_eq : (HeapObject.mk o.start).words m = .ok o.words := by
  rw [HeapObject.words, slotCount_eq ho hh]
  exact Memory.readMany_eq_ok_iff_holds.2 hh

theorem span_eq : (HeapObject.mk o.start).span m = o.span := by
  rw [HeapObject.span, slotCount_eq ho hh]
  rfl

end Block.IsObject

namespace Graph

open Heap

/-- Where the slots of the objects lie that the words point to. -/
def spans (m : Memory) (ws : List Word) : List Span :=
  (pointees ws).map fun x => (HeapObject.mk x).span m

/-- A header stands at the address, and all slots were handed out and lie in one chunk. -/
structure Intact (m : Memory) (blocks : List Span) (x : Nat) : Prop where
  header : ∃ hd, HeapObject.header ⟨x⟩ m = .ok hd
  inChunk : m.InChunk ((HeapObject.mk x).span m)
  handedOut : ∀ a, ((HeapObject.mk x).span m).Covers a → ∃ s ∈ blocks, s.Covers a

/-- The words are the same and no pointer, or point to objects with the same words. -/
inductive Follows (m m' : Memory) : Word → Word → Prop where
  | keep {w : Word} : w.kind ≠ .pointer → Follows m m' w w
  | move {w w' : Word} {us : List Word} : w.kind = .pointer → w'.kind = .pointer →
    HeapObject.words ⟨w.toNat⟩ m = .ok us → HeapObject.words ⟨w'.toNat⟩ m' = .ok us →
    Follows m m' w w'

/-- The second arena and roots came of the first ones by moving what the roots point to, where the
blocks had been handed out. -/
structure Effect (a : Arena) (ws : List Word) (blocks : List Span) (b : Arena)
    (ws' : List Word) : Prop where
  roots : List.Forall₂ (Follows a.memory b.memory) ws ws'
  history : b.History (blocks ++ spans b.memory ws')
  inChunk : ∀ s ∈ spans b.memory ws', b.memory.InChunk s
  apart : (spans b.memory ws').Pairwise Span.Disjoint
  fresh : ∀ s ∈ blocks, ∀ t ∈ spans b.memory ws', s.Disjoint t
  wiped : ∀ s ∈ spans a.memory ws, b.memory.Holds s.start (List.replicate s.length Word.zero)
  kept : ∀ x v, a.memory.read x = .ok v → (∀ s ∈ spans a.memory ws, ¬ s.Covers x) →
    (∀ s ∈ spans b.memory ws', ¬ s.Covers x) → b.memory.read x = .ok v
  allocated_eq : b.allocated = a.allocated + Span.total (spans a.memory ws)

/-! ## Objects that can be moved -/

/-- The words of an object that is intact. -/
theorem Intact.stands {h : Heap} {blocks : List Span} {x : Nat} (hh : h.arena.History blocks)
    (hi : Intact h.memory blocks x) :
    ∃ us, Stands h ⟨x, us⟩ ∧ (HeapObject.mk x).span h.memory = (Block.mk x us).span := by
  obtain ⟨hd, hheader⟩ := hi.header
  have hspan := HeapObject.span_of_header hheader
  have hpos := Layout.nfields_lt_slotCount hd
  have hchunk := hi.inChunk
  have hcover := hi.handedOut
  rw [hspan] at hchunk hcover
  obtain ⟨us, hlen, hholds⟩ := hchunk.exists_holds
  have hlen : us.length = hd.layout.slotCount := hlen
  obtain ⟨w, ws, rfl⟩ := List.exists_cons_of_length_pos (Nat.zero_lt_of_lt (hlen ▸ hpos))
  have hw : w = hd.toWord :=
    Except.ok.inj ((Memory.holds_cons.1 hholds).1.symm.trans (HeapObject.read_of_header hheader))
  refine ⟨w :: ws, ⟨⟨hd, ws, by rw [hw], hlen.symm⟩, hholds, ?_⟩, ?_⟩
  · -- The last byte of the object was handed out, so the frontier is behind it.
    obtain ⟨s, hs, -, hlt⟩ := hcover (x + wordSize * hd.layout.slotCount - 1)
      ⟨by simp only [wordSize]; omega, by simp only [Span.stop, wordSize]; omega⟩
    have hle := hh.stop_le_frontier s hs
    simp only [Block.span, Block.size, Span.stop, wordSize, hlen] at *
    omega
  · rw [hspan, Block.span, Block.size, hlen]

theorem exists_stands {h : Heap} {blocks : List Span} (hh : h.arena.History blocks)
    {xs : List Nat} (hx : ∀ x ∈ xs, Intact h.memory blocks x) :
    ∃ os : List Block, xs = os.map Block.start ∧ (∀ o ∈ os, Stands h o) ∧
      (xs.map fun x => (HeapObject.mk x).span h.memory) = os.map Block.span := by
  induction xs with
  | nil => exact ⟨[], rfl, by simp, rfl⟩
  | cons x xs ih =>
    obtain ⟨os, hxs, hos, hspans⟩ := ih fun y hy => hx y (List.mem_cons_of_mem _ hy)
    obtain ⟨us, hs, hspan⟩ := (hx x List.mem_cons_self).stands hh
    refine ⟨⟨x, us⟩ :: os, by rw [List.map_cons, ← hxs], ?_, ?_⟩
    · intro o ho
      rcases List.mem_cons.1 ho with rfl | ho
      · exact hs
      · exact hos o ho
    · rw [List.map_cons, List.map_cons, hspan, hspans]

/-! ## Roots in turn -/

/-- The words in front point to the first blocks, those behind to the second ones, which have the
same words. -/
inductive Renames : List Word → List Block → List Word → List Block → Prop where
  | nil : Renames [] [] [] []
  | keep {w : Word} {ws ws' : List Word} {os ts : List Block} : w.kind ≠ .pointer →
    Renames ws os ws' ts → Renames (w :: ws) os (w :: ws') ts
  | move {w w' : Word} {us : List Word} {ws ws' : List Word} {os ts : List Block} :
    w.kind = .pointer → w'.kind = .pointer → Renames ws os ws' ts →
    Renames (w :: ws) (⟨w.toNat, us⟩ :: os) (w' :: ws') (⟨w'.toNat, us⟩ :: ts)

theorem pointees_cons {w : Word} {ws : List Word} :
    pointees (w :: ws) = if w.kind = .pointer then w.toNat :: pointees ws else pointees ws := by
  by_cases hw : w.kind = .pointer <;> simp [pointees, hw]

theorem Renames.pointees_eq {ws ws' : List Word} {os ts : List Block} (h : Renames ws os ws' ts) :
    pointees ws' = ts.map Block.start := by
  induction h with
  | nil => rfl
  | keep hw _ ih => rw [pointees_cons, if_neg hw, ih]
  | move _ hw' _ ih => rw [pointees_cons, if_pos hw', ih, List.map_cons]

theorem Renames.follows {m m' : Memory} {ws ws' : List Word} {os ts : List Block}
    (h : Renames ws os ws' ts) (ho : ∀ o ∈ os, HeapObject.words ⟨o.start⟩ m = .ok o.words)
    (ht : ∀ t ∈ ts, HeapObject.words ⟨t.start⟩ m' = .ok t.words) :
    List.Forall₂ (Follows m m') ws ws' := by
  induction h with
  | nil => exact .nil
  | keep hw _ ih => exact .cons (.keep hw) (ih ho ht)
  | move hw hw' _ ih =>
    refine .cons (.move hw hw' (ho _ List.mem_cons_self) (ht _ List.mem_cons_self)) (ih ?_ ?_)
    · exact fun o h => ho o (List.mem_cons_of_mem _ h)
    · exact fun t h => ht t (List.mem_cons_of_mem _ h)

/-- A pointer to an object follows it to its copy, unless there is no room for one. -/
theorem run_relocate_of_stands {h : Heap} {blocks : List Span} {w : Word} {o : Block}
    (hh : h.arena.History blocks) (hp : w.kind = .pointer) (hw : w.toNat = o.start)
    (ho : Stands h o) (hl : h.arena.Allows o.size) :
    (∃ h', (relocate w).run h = .error .exhausted h') ∨
      ∃ w' t h', (relocate w).run h = .ok w' h' ∧ w'.kind = .pointer ∧ w'.toNat = t.start ∧
        Moves h o t h' := by
  rcases run_evacuate_of_stands hh ho hl with ⟨h', hrun⟩ | ⟨t, h', hrun, hm⟩
  · exact .inl ⟨h', run_relocate_of_error hp (hw ▸ hrun)⟩
  · obtain ⟨v, us, hus⟩ := List.exists_cons_of_length_pos (l := t.words)
      (by rw [hm.words_eq]; exact ho.size_pos)
    have hread := hm.copied
    rw [hus] at hread
    obtain ⟨-, hal, hlt⟩ := Memory.exists_read_iff.1 ⟨v, (Memory.holds_cons.1 hread).1⟩
    have hlimit := Nat.lt_of_lt_of_le hlt (hm.history hh).balanced.stop_le
    obtain ⟨w', hrun', hw', hp'⟩ := run_relocate_of_aligned hp (hw ▸ hrun) hal hlimit
    exact .inr ⟨w', t, h', hrun', hp', hw', hm⟩

/-- Pointers to objects that are apart follow them in turn, unless there is no room for a copy. -/
theorem run_relocateAll_of_stands {h : Heap} {blocks : List Span} {ws : List Word} {os : List Block}
    (hh : h.arena.History blocks) (hw : pointees ws = os.map Block.start)
    (hs : ∀ o ∈ os, Stands h o) (hd : (os.map Block.span).Pairwise Span.Disjoint)
    (hl : h.arena.Allows (Span.total (os.map Block.span))) :
    (∃ h', (relocateAll ws).run h = .error .exhausted h') ∨
      ∃ ws' ts h', (relocateAll ws).run h = .ok ws' h' ∧ Copies h os ts h' ∧
        Renames ws os ws' ts := by
  induction ws generalizing h blocks os with
  | nil =>
    obtain rfl : os = [] := List.map_eq_nil_iff.1 hw.symm
    exact .inr ⟨[], [], h, rfl, .nil h, .nil⟩
  | cons w ws ih =>
    rw [pointees_cons] at hw
    rw [relocateAll, run_bind]
    by_cases hp : w.kind = .pointer
    case neg =>
      rw [if_neg hp] at hw
      have hkeep : (relocate w).run h = .ok w h := by rw [relocate, if_neg hp]; rfl
      rw [hkeep]
      simp only
      rw [run_bind]
      rcases ih hh hw hs hd hl with ⟨h', hrun⟩ | ⟨ws', ts, h', hrun, hc, hr⟩
      · rw [hrun]
        exact .inl ⟨h', rfl⟩
      · rw [hrun]
        exact .inr ⟨w :: ws', ts, h', rfl, hc, .keep hp hr⟩
    case pos =>
      rw [if_pos hp] at hw
      obtain ⟨o, os, rfl, ho, hw⟩ := List.map_eq_cons_iff.1 hw.symm
      obtain ⟨hfirst, hlater⟩ := List.pairwise_cons.1 hd
      have hfits : h.arena.Allows o.size := fun limit hlimit =>
        Nat.le_trans (Nat.add_le_add_left (Nat.le_add_right _ _) _) (hl limit hlimit)
      rcases run_relocate_of_stands hh hp ho.symm (hs o List.mem_cons_self) hfits with
        ⟨h', hrun⟩ | ⟨w', t, h₁, hrun, hp', hw', hm⟩
      · rw [hrun]
        exact .inl ⟨h', rfl⟩
      rw [hrun]
      simp only
      rw [run_bind]
      -- The later objects are apart from this one, so they are still there to be moved.
      have hs₁ : ∀ p ∈ os, Stands h₁ p := fun p hp =>
        hm.stands (hs p (List.mem_cons_of_mem _ hp)) (hfirst _ (List.mem_map_of_mem hp)).symm
      rcases ih (hm.history hh) hw.symm hs₁ hlater (hm.allows hl) with
        ⟨h', hrun⟩ | ⟨ws', ts, h', hrun, hc, hr⟩
      · rw [hrun]
        exact .inl ⟨h', rfl⟩
      · rw [hrun]
        refine .inr ⟨w' :: ws', t :: ts, h', rfl, .cons hm hc, ?_⟩
        obtain ⟨x, us⟩ := o
        obtain ⟨y, vs⟩ := t
        obtain rfl : vs = us := hm.words_eq
        obtain rfl : x = w.toNat := ho
        obtain rfl : w'.toNat = y := hw'
        exact .move hp hp' hr

/-! ## The whole collection -/

/-- What the moves of the objects and the new roots come to. -/
theorem effect_of_copies {h h' : Heap} {blocks : List Span} {ws ws' : List Word}
    {os ts : List Block} (hh : h.arena.History blocks) (hs : ∀ o ∈ os, Stands h o)
    (hold : spans h.memory ws = os.map Block.span)
    (hd : (os.map Block.span).Pairwise Span.Disjoint) (hc : Copies h os ts h')
    (hr : Renames ws os ws' ts) : Effect h.arena ws blocks h'.arena ws' := by
  have hle : ∀ o ∈ os, o.span.stop ≤ h.arena.frontier := fun o ho => (hs o ho).stop_le
  have hcopied := hc.copied hle
  have hobjects : ∀ t ∈ ts, t.IsObject := by
    intro t ht
    have hmem : t.words ∈ os.map Block.words := hc.words_eq ▸ List.mem_map_of_mem ht
    obtain ⟨o, ho, hwords⟩ := List.mem_map.1 hmem
    exact (hs o ho).object.congr hwords.symm
  have hnew : spans h'.arena.memory ws' = ts.map Block.span := by
    rw [spans, hr.pointees_eq, List.map_map]
    exact List.map_congr_left fun t ht => (hobjects t ht).span_eq (hcopied t ht)
  have hold : spans h.arena.memory ws = os.map Block.span := hold
  constructor
  case roots =>
    refine hr.follows (fun o ho => ?_) fun t ht => ?_
    · exact (hs o ho).object.words_eq (hs o ho).holds
    · exact (hobjects t ht).words_eq (hcopied t ht)
  case wiped =>
    rw [hold]
    exact List.forall_mem_map.2 (hc.wiped hle hd)
  case allocated_eq =>
    rw [hold]
    exact hc.allocated_eq
  case kept =>
    rw [hold, hnew]
    intro x v hv ho ht
    refine hc.kept hv (fun o h => ?_) fun t h => ?_
    · exact ho _ (List.mem_map_of_mem h)
    · exact ht _ (List.mem_map_of_mem h)
  all_goals rw [hnew]
  case history => exact hc.history hh
  case inChunk => exact List.forall_mem_map.2 hc.inChunk
  case apart => exact hc.apart
  case fresh =>
    intro s hblock
    refine List.forall_mem_map.2 fun t ht => .inl ?_
    exact Nat.le_trans (hh.stop_le_frontier s hblock) (hc.frontier_le_start t ht)

/-- A collection ends normally where the objects of the roots are intact and apart, the limit allows
the copies and there is room for them. It moves the objects, and nothing else is changed. -/
theorem collection_moves_objects {h : Heap} {n : Nat} {blocks : List Span}
    (hn : h.discipline = .moving n) (hh : h.arena.History blocks)
    (hi : ∀ x ∈ pointees h.roots, Intact h.memory blocks x)
    (hd : (spans h.memory h.roots).Pairwise Span.Disjoint)
    (hl : h.arena.Allows (Span.total (spans h.memory h.roots))) (r : Request)
    (hx : ∀ h', (prepare r).run h ≠ .error .exhausted h') :
    ∃ h', (prepare r).run h = .ok () h' ∧ h'.discipline = .moving (n + 1) ∧
      Effect h.arena h.roots blocks h'.arena h'.roots := by
  have hprepare : (prepare r).run h = collect.run { h with discipline := .moving (n + 1) } := by
    rw [run_prepare, hn]
  rw [hprepare, run_collect_eq, run_bind] at hx ⊢
  obtain ⟨os, hos, hs, hspans⟩ := exists_stands hh hi
  rw [spans, hspans] at hd hl
  -- A collection is counted before it begins; memory is the same.
  let k : Heap := { h with discipline := .moving (n + 1) }
  have hk : ∀ o ∈ os, Stands k o := fun o ho =>
    ⟨(hs o ho).object, (hs o ho).holds, (hs o ho).stop_le⟩
  rcases run_relocateAll_of_stands (h := k) hh hos hk hd hl with
    ⟨h', hrun⟩ | ⟨roots, ts, h', hrun, hc, hr⟩
  · rw [hrun] at hx
    exact absurd rfl (hx h')
  · rw [hrun]
    have heffect := effect_of_copies (h := k) hh hk hspans hd hc hr
    exact ⟨{ h' with roots }, rfl, hc.alike.discipline, heffect⟩

/-! ## Two constructors that fill a chunk -/

/-- A constructor over two numbers, and one over a pointer to it and a number. -/
def twinWords : List Word :=
  [(Header.mk 9 2 false (by decide) (by decide)).toWord, .unboxed 42, .unboxed 43,
    (Header.mk 10 2 true (by decide) (by decide)).toWord, .ofNat Memory.origin, .unboxed 7]

def twinSpans : List Span := [⟨Memory.origin, 3⟩, ⟨Memory.origin + 24, 3⟩]

def twins : Heap where
  arena := {
    config := { chunkWords := 6 }, memory := { chunks := [twinWords.toArray] }, cursor := 6,
    allocated := 6 }
  discipline := .moving 0
  roots := [.ofNat Memory.origin, .unboxed 7, .ofNat (Memory.origin + 24)]

theorem twins_history : twins.arena.History twinSpans := by
  let config : ArenaConfig := { chunkWords := 6 }
  let blank : Memory := { chunks := [Array.replicate 6 Word.zero] }
  let half : Arena := { config, memory := blank, cursor := 3, allocated := 3 }
  let full : Arena := { config, memory := blank, cursor := 6, allocated := 6 }
  have hhalf : Arena.reserve { config } (.words 3) = .ok (Memory.origin, half) := by
    decide +kernel
  have hfull : half.reserve (.words 3) = .ok (Memory.origin + 24, full) := by decide +kernel
  have hwrite : blank.writeMany Memory.origin twinWords = .ok twins.memory := by decide +kernel
  have hnew := Arena.History.new config
  have hblank : full.History twinSpans := (hnew.request rfl hhalf).request rfl hfull
  exact Arena.History.storeMany (a := full) hblank hwrite

theorem twins_intact : ∀ x ∈ pointees twins.roots, Intact twins.memory twinSpans x := by
  have hroots : pointees twins.roots = [Memory.origin, Memory.origin + 24] := by decide +kernel
  have hobjects : ∀ x ∈ [Memory.origin, Memory.origin + 24],
      ((HeapObject.mk x).header twins.memory).isOk = true ∧
        (HeapObject.mk x).span twins.memory = ⟨x, 3⟩ ∧ (⟨x, 3⟩ : Span) ∈ twinSpans := by
    decide +kernel
  rw [hroots]
  intro x hx
  obtain ⟨hok, hspan, hmem⟩ := hobjects x hx
  refine ⟨?_, ?_, ?_⟩
  · cases hh : (HeapObject.mk x).header twins.memory with
    | ok hd => exact ⟨hd, rfl⟩
    | error e =>
      rw [hh] at hok
      cases hok
  · rw [hspan]
    rcases List.mem_pair.1 hx with rfl | rfl
    · exact ⟨0, twinWords.toArray, 0, rfl, rfl, by decide⟩
    · exact ⟨0, twinWords.toArray, 3, rfl, rfl, by decide⟩
  · rw [hspan]
    exact fun a ha => ⟨_, hmem, ha⟩

/-- The copies fill a new chunk. -/
theorem twins_collected :
    ∃ h', (prepare (.words 2)).run twins = .ok () h' ∧ h'.discipline = .moving 1 ∧
      Effect twins.arena twins.roots twinSpans h'.arena h'.roots := by
  have hspans : spans twins.memory twins.roots = twinSpans := by decide +kernel
  have hapart : twinSpans.Pairwise Span.Disjoint :=
    List.pairwise_pair.2 (.inl (by decide))
  have hgiven : given (prepare (.words 2)) twins = some () := by decide +kernel
  have hroom : ∀ h', (prepare (.words 2)).run twins ≠ .error .exhausted h' := by
    intro h' he
    rw [run_of_given hgiven] at he
    cases he
  have hallows : twins.arena.Allows (Span.total (spans twins.memory twins.roots)) :=
    fun limit hlimit => by cases hlimit
  exact collection_moves_objects rfl twins_history twins_intact (hspans ▸ hapart) hallows
    (.words 2) hroom

end Graph

end TaggedHeap
