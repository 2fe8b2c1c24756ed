import TaggedHeap.Proofs.Arena.History
import TaggedHeap.Proofs.Heap.Relocation

/-!
# Copying objects in turn

One move copies the words of an object behind everything that was handed out and wipes the old copy.
Moves made in turn do not disturb one another as long as the objects are apart: what is to be moved
later lies in front of the frontier, and what was moved before is never handed out again. Nothing is
said of the words behind the frontier, which a program may have written.
-/

namespace TaggedHeap

/-- Words from an address on. -/
structure Block where
  start : Nat
  words : List Word

namespace Block

variable {o t : Block}

def size (o : Block) : Nat := o.words.length

def span (o : Block) : Span := ⟨o.start, o.size⟩

/-- The first word is a header, and it gives so many slots. -/
def IsObject (o : Block) : Prop := ∃ hd : Header, ∃ us, o.words = hd.toWord :: us ∧ hd.Fits us

theorem IsObject.congr (ho : o.IsObject) (hw : t.words = o.words) : t.IsObject := by
  obtain ⟨hd, us, he, hfit⟩ := ho
  exact ⟨hd, us, hw.trans he, hfit⟩

end Block

/-- Words are written to another place and zeros over the old one. -/
theorem Memory.Holds.transfer {m : Memory} {x y : Nat} {us : List Word} (hx : m.Holds x us)
    (hy : m.InChunk ⟨y, us.length⟩) (hd : Span.Disjoint ⟨x, us.length⟩ ⟨y, us.length⟩) :
    ∃ m₁ m₂, m.writeMany y us = .ok m₁ ∧
      m₁.writeMany x (List.replicate us.length Word.zero) = .ok m₂ ∧ m₂.sizes = m.sizes ∧
      m₂.Holds y us ∧ m₂.Holds x (List.replicate us.length Word.zero) ∧
      ∀ a, ¬ Span.Covers ⟨x, us.length⟩ a → ¬ Span.Covers ⟨y, us.length⟩ a →
        m₂.read a = m.read a := by
  obtain ⟨vs, hlen, hfree⟩ := hy.exists_holds
  have hlen : us.length = vs.length := hlen.symm
  obtain ⟨m₁, hm₁, hnew, hc₁⟩ := hfree.writeMany hlen
  rw [← hlen] at hc₁
  have hold : m₁.Holds x us := hx.changedWithin hc₁ hd.symm
  obtain ⟨m₂, hm₂, hzero, hc₂⟩ :=
    hold.writeMany (show (List.replicate us.length Word.zero).length = us.length by simp)
  refine ⟨m₁, m₂, hm₁, hm₂, hc₂.sizes_eq.trans hc₁.sizes_eq, hnew.changedWithin hc₂ hd, hzero, ?_⟩
  intro a ha hb
  exact (hc₂.read_eq a (Span.not_covers.1 ha)).trans (hc₁.read_eq a (Span.not_covers.1 hb))

namespace Heap

variable {h h₁ h' : Heap} {o t : Block} {os ts : List Block}

/-- The words are those of an object, in memory that was handed out. -/
structure Stands (h : Heap) (o : Block) : Prop where
  object : o.IsObject
  holds : h.memory.Holds o.start o.words
  stop_le : o.span.stop ≤ h.arena.frontier

/-- The object was moved: its words stand in a new block, zeros where they stood, and whatever else
could be read is as it was. -/
structure Moves (h : Heap) (o t : Block) (h' : Heap) : Prop where
  words_eq : t.words = o.words
  alike : h.Alike h'
  frontier_le : h.arena.frontier ≤ t.start
  frontier_eq : h'.arena.frontier = t.span.stop
  allocated_eq : h'.arena.allocated = h.arena.allocated + o.size
  history : ∀ {blocks}, h.arena.History blocks → h'.arena.History (blocks ++ [t.span])
  chunks : ∀ {s}, h.memory.InChunk s → h'.memory.InChunk s
  inChunk : h'.memory.InChunk t.span
  copied : h'.memory.Holds t.start t.words
  wiped : h'.memory.Holds o.start (List.replicate o.size Word.zero)
  kept : ∀ {a v}, ¬ o.span.Covers a → ¬ t.span.Covers a → h.memory.read a = .ok v →
    h'.memory.read a = .ok v

/-- The objects were moved in turn. -/
inductive Copies : Heap → List Block → List Block → Heap → Prop where
  | nil (h : Heap) : Copies h [] [] h
  | cons {h h₁ h' : Heap} {o t : Block} {os ts : List Block} :
    Moves h o t h₁ → Copies h₁ os ts h' → Copies h (o :: os) (t :: ts) h'

/-! ## One move -/

namespace Stands

theorem size_pos (hs : Stands h o) : 0 < o.size := by
  obtain ⟨hd, us, hw, -⟩ := hs.object
  simp [Block.size, hw]

theorem size_le (hs : Stands h o) : o.size ≤ maxSlots := by
  obtain ⟨hd, us, hw, hfit⟩ := hs.object
  have hle := Layout.slotCount_le hd
  rw [hfit] at hle
  rw [Block.size, hw]
  exact hle

theorem chunks_ne_nil (hs : Stands h o) : h.memory.chunks ≠ [] := by
  obtain ⟨hd, us, hw, -⟩ := hs.object
  have hholds := hs.holds
  rw [hw] at hholds
  obtain ⟨hle, -, hlt⟩ := Memory.exists_read_iff.1 ⟨_, (Memory.holds_cons.1 hholds).1⟩
  intro hnil
  simp only [Memory.stop, Memory.extent, hnil, Memory.wordsIn] at hlt
  omega

end Stands

theorem Moves.holds (hm : Moves h o t h₁) {x : Nat} {us : List Word} (hh : h.memory.Holds x us)
    (ho : Span.Disjoint ⟨x, us.length⟩ o.span) (ht : Span.Disjoint ⟨x, us.length⟩ t.span) :
    h₁.memory.Holds x us :=
  hh.of_read fun _ _ hc hr => hm.kept (ho.not_covers hc) (ht.not_covers hc) hr

theorem Moves.stop_le (hm : Moves h o t h₁) : h.arena.frontier ≤ h₁.arena.frontier := by
  rw [hm.frontier_eq]
  exact Nat.le_trans hm.frontier_le (Nat.le_add_right _ _)

/-- The words of a copy count towards the limit. -/
theorem Moves.allows (hm : Moves h o t h₁) {n : Nat} (hl : h.arena.Allows (o.size + n)) :
    h₁.arena.Allows n := by
  intro limit hlimit
  have hle := hl limit (hm.alike.config ▸ hlimit)
  rw [hm.allocated_eq]
  omega

/-- Another object stays what it is. -/
theorem Moves.stands (hm : Moves h o t h₁) {p : Block} (hp : Stands h p)
    (hd : p.span.Disjoint o.span) : Stands h₁ p where
  object := hp.object
  holds := hm.holds hp.holds hd (.inl (Nat.le_trans hp.stop_le hm.frontier_le))
  stop_le := Nat.le_trans hp.stop_le hm.stop_le

/-- An object is moved to the memory that is handed out for it. -/
theorem moves_of_reserve {blocks : List Span} (hh : h.arena.History blocks) (ho : Stands h o)
    {x : Nat} {b : Arena} (he : h.arena.reserve (.words o.size) = .ok (x, b)) :
    ∃ h', (evacuate ⟨o.start⟩).run h = .ok ⟨x⟩ h' ∧ Moves h o ⟨x, o.words⟩ h' := by
  have hr : (Request.words o.size).isEmpty = false :=
    beq_eq_false_iff_ne.2 (Nat.ne_of_gt ho.size_pos)
  have hout := hh.balanced.handsOut hr he
  let h₁ : Heap := { h with arena := b, log := h.log ++ h.arena.records 0 (.words o.size) }
  have hreserve : (reserve 0 (.words o.size) fatal).run h = .ok x h₁ := by rw [run_reserve, he]
  have hold : h₁.memory.Holds o.start o.words := ho.holds.of_read fun _ _ _ hv => hout.read hv
  have happart : o.span.Disjoint ⟨x, o.size⟩ := .inl (Nat.le_trans ho.stop_le hout.frontier_le)
  obtain ⟨m₁, m₂, hm₁, hm₂, hsizes, hnew, hzero, hkept⟩ := hold.transfer hout.inChunk happart
  have hrun : (evacuate ⟨o.start⟩).run h = .ok ⟨x⟩ ((h₁.withMemory m₁).withMemory m₂) := by
    obtain ⟨hd, us, hw, hfit⟩ := ho.object
    have hsize : o.size = us.length + 1 := by simp [Block.size, hw]
    rw [hsize] at hreserve
    rw [show o.words.length = us.length + 1 from hsize] at hm₂
    exact run_evacuate_of_writes (o := ⟨o.start⟩) (hw ▸ ho.holds) hfit hreserve (hw ▸ hold)
      (hw ▸ hm₁) hm₂
  exact ⟨(h₁.withMemory m₁).withMemory m₂, hrun, {
    words_eq := rfl
    alike := ⟨rfl, rfl, hout.config_eq⟩
    frontier_le := hout.frontier_le
    frontier_eq := (Arena.frontier_congr hsizes).trans hout.frontier_eq
    allocated_eq := (Arena.charged_of_reserve_words (Nat.ne_of_gt ho.size_pos) he).1
    history := fun hblocks => ((hblocks.request hr he).storeMany hm₁).storeMany hm₂
    chunks := fun hs => (hout.chunks hs).of_sizes_eq hsizes
    inChunk := hout.inChunk.of_sizes_eq hsizes
    copied := hnew
    wiped := hzero
    kept := fun ho' ht' hv => (hkept _ ho' ht').trans (hout.read hv) }⟩

/-- An object is moved unless there is no room for the copy, where the limit allows it. -/
theorem run_evacuate_of_stands {blocks : List Span} (hh : h.arena.History blocks) (ho : Stands h o)
    (hl : h.arena.Allows o.size) :
    (∃ h', (evacuate ⟨o.start⟩).run h = .error .exhausted h') ∨
      ∃ t h', (evacuate ⟨o.start⟩).run h = .ok ⟨t.start⟩ h' ∧ Moves h o t h' := by
  rcases hh.balanced.reserve_words_cases (hh.opens ho.chunks_ne_nil) ho.size_pos ho.size_le hl with
    ⟨x, b, he⟩ | he
  · obtain ⟨h', hrun, hm⟩ := moves_of_reserve hh ho he
    exact .inr ⟨_, h', hrun, hm⟩
  · obtain ⟨hd, us, hw, hfit⟩ := ho.object
    have hsize : o.size = us.length + 1 := by simp [Block.size, hw]
    obtain ⟨h', hrun, -⟩ :=
      run_evacuate_of_error (o := ⟨o.start⟩) (hw ▸ ho.holds) hfit (hsize ▸ he)
    exact .inl ⟨h', hrun⟩

/-! ## Moves in turn -/

namespace Copies

theorem alike (hc : Copies h os ts h') : h.Alike h' := by
  induction hc with
  | nil h => exact .refl h
  | cons hm _ ih => exact hm.alike.trans ih

theorem words_eq (hc : Copies h os ts h') : ts.map Block.words = os.map Block.words := by
  induction hc with
  | nil h => rfl
  | cons hm _ ih => rw [List.map_cons, List.map_cons, hm.words_eq, ih]

theorem frontier_le_start (hc : Copies h os ts h') : ∀ t ∈ ts, h.arena.frontier ≤ t.start := by
  induction hc with
  | nil h => simp
  | cons hm _ ih =>
    intro t ht
    rcases List.mem_cons.1 ht with rfl | ht
    · exact hm.frontier_le
    · exact Nat.le_trans hm.stop_le (ih t ht)

/-- The new blocks lie one behind the other. -/
theorem apart (hc : Copies h os ts h') : (ts.map Block.span).Pairwise Span.Disjoint := by
  induction hc with
  | nil h => exact List.Pairwise.nil
  | cons hm hrest ih =>
    refine List.pairwise_cons.2 ⟨fun s hs => ?_, ih⟩
    obtain ⟨t, ht, rfl⟩ := List.mem_map.1 hs
    exact .inl (Nat.le_trans (Nat.le_of_eq hm.frontier_eq.symm) (hrest.frontier_le_start t ht))

theorem allocated_eq (hc : Copies h os ts h') :
    h'.arena.allocated = h.arena.allocated + Span.total (os.map Block.span) := by
  induction hc with
  | nil h => rfl
  | cons hm _ ih => rw [ih, hm.allocated_eq, List.map_cons, Span.total, ← Nat.add_assoc]; rfl

theorem history (hc : Copies h os ts h') {blocks : List Span} (hh : h.arena.History blocks) :
    h'.arena.History (blocks ++ ts.map Block.span) := by
  induction hc generalizing blocks with
  | nil h =>
    rw [List.map_nil, List.append_nil]
    exact hh
  | cons hm _ ih =>
    have hrest := ih (hm.history hh)
    rw [List.append_assoc] at hrest
    exact hrest

theorem chunks (hc : Copies h os ts h') {s : Span} (hs : h.memory.InChunk s) :
    h'.memory.InChunk s := by
  induction hc with
  | nil h => exact hs
  | cons hm _ ih => exact ih (hm.chunks hs)

theorem inChunk (hc : Copies h os ts h') : ∀ t ∈ ts, h'.memory.InChunk t.span := by
  induction hc with
  | nil h => simp
  | cons hm hrest ih =>
    intro t ht
    rcases List.mem_cons.1 ht with rfl | ht
    · exact hrest.chunks hm.inChunk
    · exact ih t ht

theorem kept (hc : Copies h os ts h') {a : Nat} {v : Word} (hv : h.memory.read a = .ok v)
    (ho : ∀ o ∈ os, ¬ o.span.Covers a) (ht : ∀ t ∈ ts, ¬ t.span.Covers a) :
    h'.memory.read a = .ok v := by
  induction hc with
  | nil h => exact hv
  | cons hm _ ih =>
    refine ih (hm.kept (ho _ List.mem_cons_self) (ht _ List.mem_cons_self) hv) ?_ ?_
    · exact fun o h => ho o (List.mem_cons_of_mem _ h)
    · exact fun t h => ht t (List.mem_cons_of_mem _ h)

/-- Words in front of the frontier that belong to none of the objects stay. -/
theorem holds (hc : Copies h os ts h') {x : Nat} {us : List Word} (hh : h.memory.Holds x us)
    (hle : Span.stop ⟨x, us.length⟩ ≤ h.arena.frontier)
    (hd : ∀ o ∈ os, Span.Disjoint ⟨x, us.length⟩ o.span) : h'.memory.Holds x us := by
  refine hh.of_read fun a v ha hv => hc.kept hv ?_ ?_
  · exact fun o ho => (hd o ho).not_covers ha
  · intro t ht
    have hnew : Span.Disjoint ⟨x, us.length⟩ t.span :=
      .inl (Nat.le_trans hle (hc.frontier_le_start t ht))
    exact hnew.not_covers ha

/-- A copy is not disturbed by later moves. -/
theorem copied (hc : Copies h os ts h') (hle : ∀ o ∈ os, o.span.stop ≤ h.arena.frontier) :
    ∀ t ∈ ts, h'.memory.Holds t.start t.words := by
  induction hc with
  | nil h => simp
  | @cons h h₁ h' o t os ts hm hrest ih =>
    have hold : ∀ p ∈ os, p.span.stop ≤ h.arena.frontier := fun p hp =>
      hle p (List.mem_cons_of_mem _ hp)
    intro p hp
    rcases List.mem_cons.1 hp with rfl | hp
    · refine hrest.holds hm.copied (Nat.le_of_eq hm.frontier_eq.symm) fun q hq => .inr ?_
      exact Nat.le_trans (hold q hq) hm.frontier_le
    · exact ih (fun q hq => Nat.le_trans (hold q hq) hm.stop_le) p hp

/-- Where an object stood, zeros stay. -/
theorem wiped (hc : Copies h os ts h') (hle : ∀ o ∈ os, o.span.stop ≤ h.arena.frontier)
    (hd : (os.map Block.span).Pairwise Span.Disjoint) :
    ∀ o ∈ os, h'.memory.Holds o.start (List.replicate o.size Word.zero) := by
  induction hc with
  | nil h => simp
  | @cons h h₁ h' o t os ts hm hrest ih =>
    obtain ⟨hfirst, hlater⟩ := List.pairwise_cons.1 hd
    have hstop : ∀ p ∈ o :: os, p.span.stop ≤ h₁.arena.frontier := fun p hp =>
      Nat.le_trans (hle p hp) hm.stop_le
    intro p hp
    rcases List.mem_cons.1 hp with rfl | hp
    · refine hrest.holds hm.wiped ?_ fun q hq => ?_
      · rw [List.length_replicate]
        exact hstop _ List.mem_cons_self
      · rw [List.length_replicate]
        exact hfirst _ (List.mem_map_of_mem hq)
    · exact ih (fun q hq => hstop q (List.mem_cons_of_mem _ hq)) hlater p hp

end Copies

end Heap

end TaggedHeap
