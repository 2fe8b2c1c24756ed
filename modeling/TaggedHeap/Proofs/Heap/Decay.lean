import TaggedHeap.Proofs.Graph.Moves
import TaggedHeap.Proofs.Heap.Validation

/-!
# What wears off

Whatever the roots point to, a collection only writes behind the frontier, where nothing was handed
out, and wipes the objects that the pointers among the roots have their headers of. So of the words
in front of the frontier each is kept or wiped, and a word that is wiped was reached by a root. A
copy has the header that it was copied with, if it has one. This takes nothing of a heap but that its
cursor is in place: blocks may overlap, and headers may lie.
-/

namespace TaggedHeap

/-- The byte at the address belongs to an object that one of the words points to. -/
def Memory.Reaches (m : Memory) (ws : List Word) (a : Nat) : Prop :=
  ∃ w ∈ ws, w.kind = .pointer ∧ ((HeapObject.mk w.toNat).span m).Covers a

/-- The first of the words that were copied. -/
theorem Memory.read_start_of_copy {m m' : Memory} {a x n : Nat} {ws : List Word} (hn : 0 < n)
    (hr : m.readMany a n = .ok ws) (hw : m.writeMany x ws = .ok m') : m'.read x = m.read a := by
  obtain ⟨n, rfl⟩ := Nat.exists_eq_add_one_of_ne_zero (Nat.ne_of_gt hn)
  obtain ⟨w, hread, hr⟩ := bind_eq_ok_iff.1 hr
  obtain ⟨vs, -, hr⟩ := bind_eq_ok_iff.1 hr
  obtain rfl := Except.ok.inj hr
  obtain ⟨k, hk, hw⟩ := bind_eq_ok_iff.1 hw
  have hbehind : x < x + wordSize := Nat.lt_add_of_pos_right (by decide)
  rw [read_of_writeMany hbehind hw, read_write hk, if_pos rfl, hread]

theorem HeapObject.span_of_slotCount {o : HeapObject} {m : Memory} {n : Nat}
    (h : o.slotCount m = .ok n) : o.span m = ⟨o.address, n⟩ := by
  rw [span, h]
  rfl

theorem HeapObject.exists_slotCount_of_covers {o : HeapObject} {m : Memory} {a : Nat}
    (h : (o.span m).Covers a) :
    ∃ n, o.slotCount m = .ok n ∧ Span.Covers ⟨o.address, n⟩ a := by
  cases hn : o.slotCount m with
  | ok n => exact ⟨n, rfl, span_of_slotCount hn ▸ h⟩
  | error e =>
    obtain ⟨hlow, hstop⟩ := h
    simp only [span, hn, Except.toOption, Option.getD_none, Span.stop] at hlow hstop
    omega

theorem HeapObject.slotCount_congr {o : HeapObject} {m n : Memory}
    (h : n.read o.address = m.read o.address) : o.slotCount n = o.slotCount m := by
  rw [slotCount, slotCount, layout, layout, header_congr h]

/-- The word at the address of an object that has slots. -/
theorem HeapObject.read_of_slotCount {o : HeapObject} {m : Memory} {n : Nat}
    (h : o.slotCount m = .ok n) :
    ∃ hd : Header, m.read o.address = .ok hd.toWord ∧ n = hd.layout.slotCount := by
  cases hh : o.header m with
  | error e =>
    rw [slotCount, layout, hh] at h
    cases h
  | ok hd =>
    rw [slotCount_of_header hh] at h
    exact ⟨hd, read_of_header hh, (Except.ok.inj h).symm⟩

/-- The slots of an object are told by the word at its address, and zeros tell none. -/
theorem HeapObject.slotCount_unique {o p : HeapObject} {m m' : Memory} {n k : Nat}
    (hn : o.slotCount m = .ok n)
    (hr : m'.read p.address = m.read o.address ∨ m'.read p.address = .ok Word.zero)
    (hk : p.slotCount m' = .ok k) : k = n := by
  obtain ⟨hd, hread, rfl⟩ := read_of_slotCount hn
  obtain ⟨hd', hread', rfl⟩ := read_of_slotCount hk
  rcases hr with hr | hz
  · have hsame := Except.ok.inj ((hread'.symm.trans hr).trans hread)
    rw [Option.some.inj ((Header.ofWord?_toWord hd').symm.trans
      ((congrArg Header.ofWord? hsame).trans (Header.ofWord?_toWord hd)))]
  · exact absurd (Except.ok.inj (hread'.symm.trans hz)) hd'.toWord_ne_zero

theorem HeapObject.slotCount_pos {o : HeapObject} {m : Memory} {n : Nat}
    (h : o.slotCount m = .ok n) : 0 < n := by
  obtain ⟨hd, -, rfl⟩ := read_of_slotCount h
  exact Nat.zero_lt_of_lt (Layout.nfields_lt_slotCount hd)

namespace Heap

/-- Of the words in front of the frontier, the second heap has those of the first one, some of them
wiped. -/
structure Decays (wiped : Nat → Prop) (h h' : Heap) : Prop where
  balanced : h'.arena.Balanced
  frontier_le : h.arena.frontier ≤ h'.arena.frontier
  front : ∀ a w, a < h.arena.frontier → h.memory.read a = .ok w →
    h'.memory.read a = .ok w ∨ wiped a ∧ h'.memory.read a = .ok Word.zero

namespace Decays

variable {p q : Nat → Prop} {h h' h'' : Heap}

theorem of_arena_eq (hb : h.arena.Balanced) (ha : h'.arena = h.arena) : Decays p h h' := by
  refine ⟨ha ▸ hb, Nat.le_of_eq (by rw [ha]), fun a w _ hw => .inl ?_⟩
  rw [memory, ha]
  exact hw

theorem trans (hd : Decays p h h') (hd' : Decays q h' h'')
    (hpq : ∀ a, a < h.arena.frontier → q a → p a) : Decays p h h'' := by
  refine ⟨hd'.balanced, Nat.le_trans hd.frontier_le hd'.frontier_le, ?_⟩
  intro a w ha hw
  have ha' := Nat.lt_of_lt_of_le ha hd.frontier_le
  rcases hd.front a w ha hw with hr | ⟨hp, hr⟩
  · exact (hd'.front a w ha' hr).imp_right fun ⟨hq, hz⟩ => ⟨hpq a ha hq, hz⟩
  · refine .inr ⟨hp, ?_⟩
    rcases hd'.front a Word.zero ha' hr with hz | ⟨-, hz⟩ <;> exact hz

theorem mono (hd : Decays p h h') (hpq : ∀ a, p a → q a) : Decays q h h' :=
  ⟨hd.balanced, hd.frontier_le, fun a w ha hw =>
    (hd.front a w ha hw).imp_right fun ⟨hp, hz⟩ => ⟨hpq a hp, hz⟩⟩

theorem of_reserve (hb : h.arena.Balanced) {r : Request} {x : Nat}
    (hres : h.arena.reserve r = .ok (x, h'.arena)) : Decays p h h' := by
  cases hr : r.isEmpty with
  | true =>
    rw [Arena.reserve_of_isEmpty hr] at hres
    exact of_arena_eq hb (Prod.mk.inj (Except.ok.inj hres)).2.symm
  | false =>
    have hout := hb.handsOut hr hres
    refine ⟨(fulfilled_of_reserve hb hres).balanced, ?_, fun a w _ hw => .inl (hout.read hw)⟩
    rw [hout.frontier_eq]
    exact Nat.le_trans hout.frontier_le (Nat.le_add_right _ _)

/-- Words in front of the frontier may be wiped, and nothing else be written there. -/
theorem withMemory (hd : Decays p h h') {m : Memory} (hs : m.sizes = h'.memory.sizes)
    (hr : ∀ a, a < h.arena.frontier →
      m.read a = h'.memory.read a ∨ p a ∧ m.read a = .ok Word.zero) :
    Decays p h (h'.withMemory m) := by
  refine ⟨hd.balanced.of_sizes_eq hs, ?_, fun a w ha hw => ?_⟩
  · exact Nat.le_trans hd.frontier_le (Nat.le_of_eq (Arena.frontier_congr hs).symm)
  · change m.read a = .ok w ∨ p a ∧ m.read a = .ok Word.zero
    rcases hr a ha with hr | hz
    · rw [hr]
      exact hd.front a w ha hw
    · exact .inr hz

theorem behind (hd : Decays p h h') {m : Memory} {s : Span} (hc : h'.memory.ChangedWithin s m)
    (hs : h.arena.frontier ≤ s.start ∨ s.length = 0) : Decays p h (h'.withMemory m) := by
  refine hd.withMemory hc.sizes_eq fun a ha => .inl (hc.read_eq a ?_)
  simp only [Span.stop]
  rcases hs with hs | hs
  · omega
  · rw [hs]
    omega

theorem wipe (hd : Decays p h h') {m : Memory} {x n : Nat}
    (hm : h'.memory.writeMany x (List.replicate n Word.zero) = .ok m)
    (hp : ∀ a, Span.Covers ⟨x, n⟩ a → p a) : Decays p h (h'.withMemory m) := by
  refine hd.withMemory (Memory.sizes_writeMany hm) fun a _ => ?_
  exact (Memory.read_writeMany_replicate hm a).imp_right fun ⟨hc, hz⟩ => ⟨hp a hc, hz⟩

/-- Zeros are no header, so an object with slots had as many before. -/
theorem slotCount_eq (hb : h.arena.Balanced) (hd : Decays p h h') {o : HeapObject} {n : Nat}
    (ho : o.address < h.arena.frontier) (hn : o.slotCount h'.memory = .ok n) :
    o.slotCount h.memory = .ok n := by
  obtain ⟨hdr, hread, -⟩ := HeapObject.read_of_slotCount hn
  obtain ⟨hlow, hal, -⟩ := Memory.exists_read_iff.1 ⟨_, hread⟩
  obtain ⟨w, hw⟩ := Memory.exists_read_iff.2
    ⟨hlow, hal, Nat.lt_of_lt_of_le ho (Arena.frontier_le_stop_of_le hb.cursor_le)⟩
  rcases hd.front _ w ho hw with hr | ⟨-, hz⟩
  · exact (HeapObject.slotCount_congr (m := h.memory) (hr.trans hw.symm)).symm.trans hn
  · exact absurd (Except.ok.inj (hread.symm.trans hz)) hdr.toWord_ne_zero

/-- What words reach in front of the frontier they reached before. -/
theorem reaches (hb : h.arena.Balanced) (hd : Decays p h h') {ws : List Word} {a : Nat}
    (ha : a < h.arena.frontier) (hr : h'.memory.Reaches ws a) : h.memory.Reaches ws a := by
  obtain ⟨w, hw, hp, hcovers⟩ := hr
  obtain ⟨n, hn, hcovers⟩ := HeapObject.exists_slotCount_of_covers hcovers
  have hn' := hd.slotCount_eq hb (Nat.lt_of_le_of_lt hcovers.1 ha) hn
  exact ⟨w, hw, hp, by rwa [HeapObject.span_of_slotCount hn']⟩

end Decays

/-- The words were handed out to an object: if there is a header in front, it gives as many slots. -/
structure Seats (h : Heap) (s : Span) : Prop where
  pos : 0 < s.length
  stop_le : s.stop ≤ h.arena.frontier
  length_eq : ∀ n, (HeapObject.mk s.start).slotCount h.memory = .ok n → n = s.length

theorem Seats.start_lt {h : Heap} {s : Span} (hs : h.Seats s) : s.start < h.arena.frontier := by
  have hpos := hs.pos
  have hstop := hs.stop_le
  simp only [Span.stop, wordSize] at hstop
  omega

theorem Seats.of_decays {p : Nat → Prop} {h h' : Heap} {s : Span} (hs : h.Seats s)
    (hb : h.arena.Balanced) (hd : Decays p h h') : h'.Seats s :=
  ⟨hs.pos, Nat.le_trans hs.stop_le hd.frontier_le,
    fun n hn => hs.length_eq n (hd.slotCount_eq hb (o := ⟨s.start⟩) hs.start_lt hn)⟩

variable {h : Heap}

/-! ## One object -/

/-- The slots of an object are copied behind the frontier and wiped, as far as that gets. -/
theorem run_copy_cases {h₁ : Heap} {o : HeapObject} {x n : Nat} (hn : 0 < n)
    (hd : Decays (Span.mk o.address n).Covers h h₁) (hx : h.arena.frontier ≤ x) :
    let copy : HeapM HeapObject := do
      let contents ← reading fun m => m.readMany o.address n
      writing fun m => m.writeMany x contents
      writing fun m => m.writeMany o.address (List.replicate n Word.zero)
      return ⟨x⟩
    ∃ h₂, ((∃ e, copy.run h₁ = .error e h₂) ∨ copy.run h₁ = .ok ⟨x⟩ h₂ ∧
        (h₂.memory.read x = h₁.memory.read o.address ∨ h₂.memory.read x = .ok Word.zero)) ∧
      h₂.roots = h₁.roots ∧ h₂.arena.frontier = h₁.arena.frontier ∧
      Decays (Span.mk o.address n).Covers h h₂ := by
  intro copy
  cases hread : h₁.memory.readMany o.address n with
  | error e =>
    exact ⟨h₁, .inl ⟨e, by rw [run_bind, run_reading, hread]⟩, rfl, rfl, hd⟩
  | ok contents =>
  rw [run_bind, run_reading_of_ok hread]
  simp only
  rw [run_bind]
  cases hm : h₁.memory.writeMany x contents with
  | error e =>
    rw [run_writing_of_error hm]
    exact ⟨h₁, .inl ⟨e, rfl⟩, rfl, rfl, hd⟩
  | ok m =>
  have hsizes := Memory.sizes_writeMany hm
  have hcopied := hd.behind (Memory.changedWithin_writeMany hm) (.inl hx)
  have hstart := Memory.read_start_of_copy hn hread hm
  rw [run_writing_of_ok hm]
  simp only
  rw [run_bind]
  cases hm' : m.writeMany o.address (List.replicate n Word.zero) with
  | error e =>
    rw [run_writing_of_error (h := h₁.withMemory m) hm']
    exact ⟨_, .inl ⟨e, rfl⟩, rfl, Arena.frontier_congr hsizes, hcopied⟩
  | ok m' =>
    rw [run_writing_of_ok (h := h₁.withMemory m) hm']
    refine ⟨_, .inr ⟨rfl, ?_⟩, rfl,
      Arena.frontier_congr ((Memory.sizes_writeMany hm').trans hsizes),
      hcopied.wipe hm' fun a ha => ha⟩
    exact (Memory.read_writeMany_replicate hm' x).imp (fun hr => hr.trans hstart) And.right

/-- An object is moved behind the frontier, or the move stops somewhere. -/
theorem run_evacuate_cases (hb : h.arena.Balanced) (o : HeapObject) :
    (∃ e h', (evacuate o).run h = .error e h' ∧ h'.roots = h.roots ∧
      Decays (o.span h.memory).Covers h h') ∨
    ∃ x n h', (evacuate o).run h = .ok ⟨x⟩ h' ∧ h'.roots = h.roots ∧
      Decays (o.span h.memory).Covers h h' ∧ o.slotCount h.memory = .ok n ∧
      h.arena.frontier ≤ x ∧ h'.Seats ⟨x, n⟩ := by
  rw [evacuate, run_bind, run_reading]
  cases hn : o.slotCount h.memory with
  | error e => exact .inl ⟨e, h, rfl, rfl, .of_arena_eq hb rfl⟩
  | ok n =>
  rw [HeapObject.span_of_slotCount hn]
  have hpos := HeapObject.slotCount_pos hn
  have hr : (Request.words n).isEmpty = false := beq_eq_false_iff_ne.2 (Nat.ne_of_gt hpos)
  simp only
  rw [run_bind, run_reserve]
  cases hres : h.arena.reserve (.words n) with
  | error e => exact .inl ⟨_, _, rfl, rfl, .of_arena_eq hb rfl⟩
  | ok answer =>
  obtain ⟨x, b⟩ := answer
  have hout := hb.handsOut hr hres
  -- Whatever fails from here on, memory for the copy has been taken.
  have hreserved : Decays (Span.mk o.address n).Covers h
      { h with arena := b, log := h.log ++ h.arena.records 0 (.words n) } := .of_reserve hb hres
  obtain ⟨h', ⟨e, hrun⟩ | ⟨hrun, hstart⟩, hroots, hfrontier, hd⟩ :=
    run_copy_cases hpos hreserved hout.frontier_le
  · exact .inl ⟨e, h', hrun, hroots, hd⟩
  · refine .inr ⟨x, n, h', hrun, hroots, hd, rfl, hout.frontier_le, hpos, ?_, fun k hk => ?_⟩
    · rw [hfrontier]
      exact Nat.le_of_eq hout.frontier_eq.symm
    · obtain ⟨hdr, hread, -⟩ := HeapObject.read_of_slotCount hn
      have hread' : b.memory.read o.address = h.memory.read o.address :=
        (hout.read hread).trans hread.symm
      exact HeapObject.slotCount_unique hn (hstart.imp_left fun he => he.trans hread') hk

/-! ## The roots in turn -/

/-- The pointer to an object with slots in front of the frontier of the first heap became the address
of as many words behind it, which the second heap handed out to an object. -/
def Lands (h h' : Heap) (w w' : Word) : Prop :=
  w.kind = .pointer → w.toNat < h.arena.frontier →
    ∃ n, (HeapObject.mk w.toNat).slotCount h.memory = .ok n ∧
      h.arena.frontier ≤ w'.toNat ∧ h'.Seats ⟨w'.toNat, n⟩

theorem Lands.of_decays_left {p : Nat → Prop} {h' h'' : Heap} {w w' : Word}
    (hb : h.arena.Balanced) (hd : Decays p h h') (hl : Lands h' h'' w w') : Lands h h'' w w' := by
  intro hp hlt
  obtain ⟨n, hn, hlow, hs⟩ := hl hp (Nat.lt_of_lt_of_le hlt hd.frontier_le)
  exact ⟨n, hd.slotCount_eq hb hlt hn, Nat.le_trans hd.frontier_le hlow, hs⟩

theorem Lands.of_decays_right {p : Nat → Prop} {h' h'' : Heap} {w w' : Word}
    (hl : Lands h h' w w') (hb : h'.arena.Balanced) (hd : Decays p h' h'') : Lands h h'' w w' := by
  intro hp hlt
  obtain ⟨n, hn, hlow, hs⟩ := hl hp hlt
  exact ⟨n, hn, hlow, hs.of_decays hb hd⟩

theorem run_relocate_cases (hb : h.arena.Balanced) (w : Word) :
    (∃ e h', (relocate w).run h = .error e h' ∧ h'.roots = h.roots ∧
      Decays (h.memory.Reaches [w]) h h') ∨
    ∃ w' h', (relocate w).run h = .ok w' h' ∧ h'.roots = h.roots ∧
      Decays (h.memory.Reaches [w]) h h' ∧ Lands h h' w w' := by
  by_cases hp : w.kind = .pointer
  case neg =>
    have hkeep : (relocate w).run h = .ok w h := by rw [relocate, if_neg hp]; rfl
    exact .inr ⟨w, h, hkeep, rfl, .of_arena_eq hb rfl, fun hp' => absurd hp' hp⟩
  have hreach : ∀ a, ((HeapObject.mk w.toNat).span h.memory).Covers a → h.memory.Reaches [w] a :=
    fun a ha => ⟨w, List.mem_singleton_self w, hp, ha⟩
  rcases run_evacuate_cases hb ⟨w.toNat⟩ with
    ⟨e, h', hrun, hroots, hd⟩ | ⟨x, n, h', hrun, hroots, hd, hn, hlow, hs⟩
  · exact .inl ⟨e, h', run_relocate_of_error hp hrun, hroots, hd.mono hreach⟩
  · have hd := hd.mono hreach
    have hlt : x < wordLimit := calc
      x < h'.arena.frontier := hs.start_lt
      _ ≤ h'.arena.memory.stop := Arena.frontier_le_stop_of_le hd.balanced.cursor_le
      _ ≤ wordLimit := hd.balanced.stop_le
    rw [relocate, if_pos hp, run_bind, hrun]
    simp only
    rw [run_lift]
    cases hw : HeapObject.toWord ⟨x⟩ with
    | error e => exact .inl ⟨e, h', rfl, hroots, hd⟩
    | ok w' =>
      obtain ⟨-, rfl⟩ := Word.pointerTo_eq_ok_iff.1 hw
      refine .inr ⟨_, h', rfl, hroots, hd, fun _ _ => ⟨n, hn, ?_⟩⟩
      rw [Word.toNat_ofNat_of_lt hlt]
      exact ⟨hlow, hs⟩

/-- Words are relocated in turn, as far as memory and headers go. -/
theorem run_relocateAll_cases (hb : h.arena.Balanced) (ws : List Word) :
    (∃ e h', (relocateAll ws).run h = .error e h' ∧ h'.roots = h.roots ∧
      Decays (h.memory.Reaches ws) h h') ∨
    ∃ ws' h', (relocateAll ws).run h = .ok ws' h' ∧ h'.roots = h.roots ∧
      Decays (h.memory.Reaches ws) h h' ∧ List.Forall₂ (Lands h h') ws ws' := by
  induction ws generalizing h with
  | nil => exact .inr ⟨[], h, rfl, rfl, .of_arena_eq hb rfl, .nil⟩
  | cons w ws ih =>
    have hhead : ∀ a, h.memory.Reaches [w] a → h.memory.Reaches (w :: ws) a := by
      rintro a ⟨v, hv, hp⟩
      exact ⟨v, List.mem_cons.2 (.inl (List.mem_singleton.1 hv)), hp⟩
    have htail : ∀ a, h.memory.Reaches ws a → h.memory.Reaches (w :: ws) a := by
      rintro a ⟨v, hv, hp⟩
      exact ⟨v, List.mem_cons_of_mem _ hv, hp⟩
    rw [relocateAll, run_bind]
    rcases run_relocate_cases hb w with ⟨e, h', hrun, hroots, hd⟩ | ⟨w', h', hrun, hroots, hd, hl⟩
    · rw [hrun]
      exact .inl ⟨e, h', rfl, hroots, hd.mono hhead⟩
    rw [hrun]
    simp only
    rw [run_bind]
    -- The first object may have wiped later ones, but it gave none of them a header.
    have hreach : ∀ a, a < h.arena.frontier → h'.memory.Reaches ws a →
        h.memory.Reaches (w :: ws) a :=
      fun a ha hr => htail a (hd.reaches hb ha hr)
    rcases ih hd.balanced with ⟨e, h'', hrun', hroots', hd'⟩ | ⟨ws', h'', hrun', hroots', hd', hl'⟩
    · rw [hrun']
      exact .inl ⟨e, h'', rfl, hroots'.trans hroots, (hd.mono hhead).trans hd' hreach⟩
    · rw [hrun']
      refine .inr ⟨w' :: ws', h'', rfl, hroots'.trans hroots, (hd.mono hhead).trans hd' hreach, ?_⟩
      exact .cons (hl.of_decays_right hd.balanced hd')
        (hl'.imp fun v v' hv => hv.of_decays_left hb hd)

/-! ## What a request leaves -/

/-- The second heap came of the first one by a collection, or by one that stopped, or by none. -/
structure Shifted (h h' : Heap) : Prop where
  decays : Decays (h.memory.Reaches h.roots) h h'
  roots : h'.roots = h.roots ∨ List.Forall₂ (Lands h h') h.roots h'.roots

theorem Shifted.of_arena_eq {h' : Heap} (hb : h.arena.Balanced) (ha : h'.arena = h.arena)
    (hr : h'.roots = h.roots) : h.Shifted h' :=
  ⟨.of_arena_eq hb ha, .inl hr⟩

theorem Shifted.trans {p : Nat → Prop} {h' h'' : Heap} (hs : h.Shifted h')
    (hd : Decays p h' h'') (hp : ∀ a, a < h.arena.frontier → ¬ p a) (hr : h''.roots = h'.roots) :
    h.Shifted h'' := by
  refine ⟨hs.decays.trans hd fun a ha hpa => absurd hpa (hp a ha), ?_⟩
  rw [hr]
  exact hs.roots.imp_right fun hl => hl.imp fun w w' hw =>
    hw.of_decays_right hs.decays.balanced hd

/-- What is done ahead of a request. -/
theorem shifted_prepare (hb : h.arena.Balanced) (r : Request) :
    h.Shifted (Graph.after (prepare r) h) := by
  rw [Graph.after, run_prepare]
  cases h.discipline with
  | plain => exact .of_arena_eq hb rfl rfl
  | recording calls =>
    cases r.size <;> exact .of_arena_eq hb rfl rfl
  | moving n =>
    simp only
    rw [run_collect_eq, run_bind]
    rcases run_relocateAll_cases (h := { h with discipline := .moving (n + 1) }) hb h.roots with
      ⟨e, h', hrun, hroots, hd⟩ | ⟨ws, h', hrun, -, hd, hl⟩
    · rw [hrun]
      exact ⟨⟨hd.balanced, hd.frontier_le, hd.front⟩, .inl hroots⟩
    · rw [hrun]
      refine ⟨⟨hd.balanced, hd.frontier_le, hd.front⟩, .inr (hl.imp fun w w' hw => ?_)⟩
      exact Lands.of_decays_right (h := h) hw hd.balanced
        (.of_arena_eq (p := fun _ => False) hd.balanced rfl)

/-- A collection, or none, led from the first heap to the second one. Then the words at the address
were handed out, and nothing else happened in front of them. -/
structure Serves (h k : Heap) (x n : Nat) (h' : Heap) : Prop where
  shifted : h.Shifted k
  decays : Decays (fun _ => False) k h'
  roots : h'.roots = k.roots
  placed : n = 0 ∨ k.arena.frontier ≤ x ∧ Span.stop ⟨x, n⟩ ≤ h'.arena.frontier

namespace Serves

variable {k h' : Heap} {x n : Nat}

theorem withMemory (hs : h.Serves k x n h') {m : Memory} (hc : h'.memory.ChangedWithin ⟨x, n⟩ m) :
    h.Serves k x n (h'.withMemory m) := by
  refine ⟨hs.shifted, hs.decays.behind hc ?_, hs.roots, ?_⟩
  · exact hs.placed.symm.imp_left And.left
  · exact hs.placed.imp_right fun ⟨hlow, hstop⟩ =>
      ⟨hlow, Nat.le_trans hstop (Nat.le_of_eq (Arena.frontier_congr hc.sizes_eq).symm)⟩

theorem shifted_after (hs : h.Serves k x n h') : h.Shifted h' :=
  hs.shifted.trans hs.decays (fun _ _ hf => hf) hs.roots

end Serves

theorem run_allocate_cases (hb : h.arena.Balanced) (r : Request) :
    (∃ e h', (allocate r).run h = .error e h' ∧ h.Shifted h') ∨
    ∃ x k h', (allocate r).run h = .ok x h' ∧ h.Serves k x r.wordCount h' := by
  have hs := shifted_prepare hb r
  rw [run_allocate]
  rw [Graph.after] at hs
  cases hprepare : (prepare r).run h with
  | error e k =>
    rw [hprepare] at hs
    exact .inl ⟨e, k, rfl, hs⟩
  | ok u k =>
    rw [hprepare] at hs
    have hk := hs.decays.balanced
    simp only
    rw [run_reserve]
    cases hres : k.arena.reserve r with
    | error e =>
      refine .inl ⟨e, _, rfl, hs.trans (.of_arena_eq hk rfl) (p := fun _ => False) ?_ rfl⟩
      exact fun _ _ hf => hf
    | ok answer =>
      obtain ⟨x, b⟩ := answer
      refine .inr ⟨x, k, _, rfl, hs, .of_reserve hk hres, rfl, ?_⟩
      cases hr : r.isEmpty with
      | true => exact .inl (Request.skipped_of_isEmpty hr 0).1
      | false =>
        have hout := hk.handsOut hr hres
        exact .inr ⟨hout.frontier_le, Nat.le_of_eq hout.frontier_eq.symm⟩

end Heap

/-! ## What a call leaves -/

namespace Allocation.Ending

open Heap

variable {α : Type} {c : Allocation} {h : Heap} {answer : Nat → α}

/-- A call that fails leaves what a collection left, and one that succeeds a block behind that. -/
theorem cases_of_balanced {result : EStateM.Result Fault Heap α} (hb : h.arena.Balanced)
    (hend : c.Ending h answer result) :
    (∃ e h', result = .error e h' ∧ h.Shifted h') ∨
    ∃ x k h', result = .ok (answer x) h' ∧ h.Serves k x c.request.wordCount h' := by
  have hcases := run_allocate_cases hb c.request
  cases hend with
  | unfit hu => exact .inl ⟨_, h, rfl, .of_arena_eq hb rfl rfl⟩
  | unserved hf hr =>
    rcases hcases with ⟨e, h', hrun, hs⟩ | ⟨x, k, h', hrun, -⟩
    all_goals rw [hr] at hrun; cases hrun
    exact .inl ⟨_, _, rfl, hs⟩
  | stopped hf hr hc he =>
    rcases hcases with ⟨e, h', hrun, -⟩ | ⟨x, k, h', hrun, hs⟩
    all_goals rw [hr] at hrun; cases hrun
    exact .inl ⟨_, _, rfl, (hs.withMemory hc).shifted_after⟩
  | made hf hr hc =>
    rcases hcases with ⟨e, h', hrun, -⟩ | ⟨x, k, h', hrun, hs⟩
    all_goals rw [hr] at hrun; cases hrun
    exact .inr ⟨_, k, _, rfl, hs.withMemory hc⟩

end Allocation.Ending

end TaggedHeap
