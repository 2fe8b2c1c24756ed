import TaggedHeap.Proofs.Object.Bytes
import TaggedHeap.Proofs.Object.References

/-!
# Construction

What the allocation of each kind of object makes of the memory that it is given. The lemmas start
from the answer of the request, so they hold whatever was done ahead of it: a request that fails is
passed on with the heap that it left, and one that succeeds ends in a block with the words of the
object. Which words the block held is of no matter, and words outside of it are not written; where
the arena owns the block, it owns the object.
-/

namespace TaggedHeap

theorem Header.ofFields?_eq_ok {uid nfields : Nat} {hd : Header}
    (h : Header.ofFields? uid nfields = .ok hd) :
    hd.uid = uid ∧ hd.nfields = nfields ∧ hd.marked = false := by
  unfold Header.ofFields? at h
  split at h
  case isFalse => simp at h
  case isTrue =>
    split at h
    case isFalse => simp at h
    case isTrue =>
      obtain rfl := Except.ok.inj h
      exact ⟨rfl, rfl, rfl⟩

theorem Header.fits_of_uid_ne {hd : Header} {ws : List Word} (hu : hd.uid ≠ closureUid)
    (hl : ws.length = hd.nfields) : hd.Fits ws := by
  simp only [Header.Fits, Header.layout, Layout.ofHeader, Header.isClosure, beq_iff_eq, hu,
    if_false]
  split <;> simp only [Layout.slotCount] <;> omega

theorem Header.fits_closure {hd : Header} {code descriptor : Word} {ws : List Word}
    (hu : hd.uid = closureUid) (hl : ws.length = hd.nfields) :
    hd.Fits (code :: descriptor :: ws) := by
  simp only [Header.Fits, Header.layout, Layout.ofHeader, Header.isClosure, hu, beq_self_eq_true,
    if_true, Layout.slotCount, closureExtraSlots, List.length_cons]
  omega

section Roots

variable {r : Roots} {i : Nat} {is : List Nat}

theorem Roots.read_of_some {w : Word} (hi : r[i]? = some w) : r.read i = .ok w := by
  rw [Roots.read, hi]

theorem Roots.read_of_none (hi : r[i]? = none) :
    r.read i = .error (.violated (.rootOutOfBounds r.length i)) := by
  rw [Roots.read, hi]

theorem Roots.mapM_read_cons_of_ok {w : Word} (hi : r.read i = .ok w) :
    (i :: is).mapM r.read = (w :: ·) <$> is.mapM r.read := by
  rw [List.mapM_cons, hi]
  rfl

theorem Roots.mapM_read_cons_of_error {e : Fault} (hi : r.read i = .error e) :
    (i :: is).mapM r.read = .error e := by
  rw [List.mapM_cons, hi]
  rfl

end Roots

theorem getElem?_concat_cases {α : Type} {as : List α} {a b : α} {i : Nat}
    (h : (as ++ [a])[i]? = some b) : as[i]? = some b ∨ i = as.length ∧ b = a := by
  rcases Nat.lt_or_ge i as.length with hlt | hge
  · rw [List.getElem?_append_left hlt] at h
    exact .inl h
  · rw [List.getElem?_append_right hge] at h
    obtain ⟨hz, hb⟩ := List.getElem?_eq_some_iff.1 h
    simp only [List.length_singleton] at hz
    exact .inr ⟨by omega, by simpa using hb.symm⟩

namespace Heap

/-- The heap with another memory. -/
def withMemory (h : Heap) (m : Memory) : Heap := { h with arena := { h.arena with memory := m } }

variable {h h' : Heap} {f : Contents} {x : Nat}

theorem run_writing_of_ok {g : Memory → Except Fault Memory} {m : Memory}
    (hg : g h.memory = .ok m) : (writing g).run h = .ok () (h.withMemory m) := by
  rw [run_writing, hg]
  rfl

theorem run_writing_of_error {g : Memory → Except Fault Memory} {e : Fault}
    (hg : g h.memory = .error e) : (writing g).run h = .error e h := by
  rw [run_writing, hg]

theorem run_reading_of_ok {α : Type} {g : Memory → Except Fault α} {a : α}
    (hg : g h.memory = .ok a) : (reading g).run h = .ok a h := by
  rw [run_reading, hg]

theorem run_reading_of_error {α : Type} {g : Memory → Except Fault α} {e : Fault}
    (hg : g h.memory = .error e) : (reading g).run h = .error e h := by
  rw [run_reading, hg]

theorem run_map {α β : Type} (g : α → β) (x : HeapM α) (h : Heap) :
    (g <$> x).run h =
      match x.run h with
      | .ok a h' => .ok (g a) h'
      | .error e h' => .error e h' := by
  simp only [EStateM.run, Functor.map, EStateM.map]
  cases x h <;> rfl

theorem run_place {w : Word} {ws : List Word} (hm : h.memory.Holds x (w :: ws)) (hd : Header) :
    ∃ m, (place x hd).run h = .ok ⟨x⟩ (h.withMemory m) ∧ m.Holds x (hd.toWord :: ws) ∧
      h.memory.ChangedWithin ⟨x, ws.length + 1⟩ m := by
  obtain ⟨m, hw, hold, hc⟩ := hm.writeStart hd.toWord
  refine ⟨m, ?_, hold, hc⟩
  rw [place, run_bind, run_writing_of_ok hw]
  rfl

end Heap

open Heap

variable {h h' : Heap} {f : Contents} {x : Nat} {hd : Header}

/-! ## Constructors -/

theorem HeapObject.run_allocate_of_refused {uid nfields : Nat} {e : Fault}
    (hh : Header.ofFields? uid nfields = .error e) :
    (HeapObject.allocate uid nfields).run h = .error e h := by
  rw [HeapObject.allocate, run_bind, run_lift, hh]

theorem HeapObject.run_allocate_of_error {uid nfields : Nat} {e : Fault}
    (hh : Header.ofFields? uid nfields = .ok hd)
    (hr : (Heap.allocate (.words (nfields + 1))).run h = .error e h') :
    (HeapObject.allocate uid nfields).run h = .error e h' := by
  rw [HeapObject.allocate, run_bind, run_lift, hh]
  simp only
  rw [run_bind, hr]

theorem HeapObject.run_allocate_of_holds {uid nfields : Nat} {w : Word} {ws : List Word}
    (hh : Header.ofFields? uid nfields = .ok hd)
    (hr : (Heap.allocate (.words (nfields + 1))).run h = .ok x h')
    (hm : h'.memory.Holds x (w :: ws)) :
    ∃ m, (HeapObject.allocate uid nfields).run h = .ok ⟨x⟩ (h'.withMemory m) ∧
      m.Holds x (hd.toWord :: ws) ∧ h'.memory.ChangedWithin ⟨x, ws.length + 1⟩ m := by
  obtain ⟨m, hplace, hold, hc⟩ := run_place hm hd
  refine ⟨m, ?_, hold, hc⟩
  rw [HeapObject.allocate, run_bind, run_lift, hh]
  simp only
  rw [run_bind, hr]
  exact hplace

theorem HeapObject.run_allocate_of_ok {uid nfields : Nat}
    (hh : Header.ofFields? uid nfields = .ok hd)
    (hr : (Heap.allocate (.words (nfields + 1))).run h = .ok x h') (ho : h'.arena.Owns f)
    (hx : f x = some (List.replicate (nfields + 1) Word.zero)) :
    ∃ m, (HeapObject.allocate uid nfields).run h = .ok ⟨x⟩ (h'.withMemory m) ∧
      (h'.withMemory m).arena.Owns
        (f.put x (hd.toWord :: List.replicate nfields Word.zero)) := by
  rw [List.replicate_succ] at hx
  obtain ⟨m, hrun, hold, hc⟩ := run_allocate_of_holds hh hr (ho.holds hx)
  exact ⟨m, hrun, ho.changedWithin hx (by simp) hold hc⟩

/-! ## Strings -/

theorem CString.headerFor_eq_ok {bytes : List UInt8} (hh : headerFor bytes = .ok hd) :
    0 ∉ bytes ∧ hd.uid = cstringUid ∧ hd.nfields = wordsFor (bytes.length + 1) ∧
      hd.marked = false := by
  unfold headerFor at hh
  split at hh
  case h_1 => simp at hh
  case h_2 hnone =>
    refine ⟨fun hz => ?_, Header.ofFields?_eq_ok hh⟩
    have hall := List.findIdx?_eq_none_iff.1 hnone 0 hz
    simp at hall

theorem CString.run_allocate_of_refused {bytes : List UInt8} {e : Fault}
    (hh : headerFor bytes = .error e) : (CString.allocate bytes).run h = .error e h := by
  rw [CString.allocate, run_bind, run_lift, hh]

theorem CString.run_allocate_of_error {bytes : List UInt8} {e : Fault}
    (hh : headerFor bytes = .ok hd)
    (hr : (Heap.allocate (.words (hd.nfields + 1))).run h = .error e h') :
    (CString.allocate bytes).run h = .error e h' := by
  rw [CString.allocate, run_bind, run_lift, hh]
  simp only
  rw [run_bind, hr]

theorem CString.run_allocate_of_holds {bytes : List UInt8} {w : Word} {ws : List Word}
    (hh : headerFor bytes = .ok hd)
    (hr : (Heap.allocate (.words (hd.nfields + 1))).run h = .ok x h')
    (hm : h'.memory.Holds x (w :: ws)) (hl : ws.length = hd.nfields) :
    ∃ m, (CString.allocate bytes).run h = .ok ⟨⟨x⟩⟩ (h'.withMemory m) ∧
      m.Holds x (hd.toWord :: pack hd.nfields bytes) ∧
      h'.memory.ChangedWithin ⟨x, hd.nfields + 1⟩ m := by
  obtain ⟨m₁, hplace, hold₁, hc₁⟩ := run_place hm hd
  obtain ⟨hw, hws⟩ := Memory.holds_cons.1 hold₁
  obtain ⟨m₂, hm₂, hold₂, hc₂⟩ := hws.writeMany ((length_pack _ bytes).trans hl.symm)
  rw [hl] at hc₁ hc₂
  have hbytes : (writing fun m => m.writeMany ((HeapObject.mk x).slotAddress 1)
      (pack hd.nfields bytes)).run (h'.withMemory m₁) = .ok () (h'.withMemory m₂) :=
    run_writing_of_ok hm₂
  refine ⟨m₂, ?_, Memory.holds_cons.2 ⟨?_, hold₂⟩, hc₁.trans (hc₂.mono ?_ ?_)⟩
  · rw [CString.allocate, run_bind, run_lift, hh]
    simp only
    rw [run_bind, hr]
    simp only
    rw [run_bind, hplace]
    simp only
    rw [run_bind, hbytes]
    rfl
  · rw [hc₂.read_eq x (.inl (by simp only [wordSize]; omega)), hw]
  · exact Nat.le_add_right _ _
  · simp only [Span.stop, wordSize]
    omega

theorem CString.run_allocate_of_ok {bytes : List UInt8} (hh : headerFor bytes = .ok hd)
    (hr : (Heap.allocate (.words (hd.nfields + 1))).run h = .ok x h') (ho : h'.arena.Owns f)
    (hx : f x = some (List.replicate (hd.nfields + 1) Word.zero)) :
    ∃ m, (CString.allocate bytes).run h = .ok ⟨⟨x⟩⟩ (h'.withMemory m) ∧
      (h'.withMemory m).arena.Owns (f.put x (hd.toWord :: pack hd.nfields bytes)) := by
  rw [List.replicate_succ] at hx
  obtain ⟨m, hrun, hold, hc⟩ := run_allocate_of_holds hh hr (ho.holds hx) List.length_replicate
  refine ⟨m, hrun, ho.changedWithin hx (by simp [length_pack]) hold ?_⟩
  rwa [List.length_cons, List.length_replicate]

/-! ## Pairs and double words -/

theorem Pair.run_allocate : Pair.allocate.run h =
    match (Heap.allocate (.words 2)).run h with
    | .ok x h' => .ok ⟨x⟩ h'
    | .error e h' => .error e h' := by
  rw [Pair.allocate, run_bind]
  cases (Heap.allocate (.words 2)).run h <;> rfl

theorem DWord.run_allocate_of_error {d : DWord} {e : Fault}
    (hr : (Heap.allocate (.dwords 1)).run h = .error e h') : d.allocate.run h = .error e h' := by
  rw [DWord.allocate, run_bind, hr]

/-- The value is written before the pointer to it is made. -/
theorem DWord.run_allocate_of_holds {d : DWord} {ws : List Word}
    (hr : (Heap.allocate (.dwords 1)).run h = .ok x h') (hm : h'.memory.Holds x ws)
    (hl : ws.length = 2) :
    ∃ m, d.allocate.run h = (lift (Word.dwordPointerTo x)).run (h'.withMemory m) ∧
      m.Holds x [d.lo, d.hi] ∧ h'.memory.ChangedWithin ⟨x, 2⟩ m := by
  have hlen : [d.lo, d.hi].length = ws.length := hl.symm
  obtain ⟨m, hw, hold, hc⟩ := hm.writeMany hlen
  refine ⟨m, ?_, hold, hl ▸ hc⟩
  rw [DWord.allocate, run_bind, hr]
  simp only
  rw [run_bind, run_writing_of_ok hw]

theorem DWord.run_allocate_of_ok {d : DWord} (hr : (Heap.allocate (.dwords 1)).run h = .ok x h')
    (hal : x % dwordSize = 0) (ho : h'.arena.Owns f)
    (hx : f x = some (List.replicate 2 Word.zero)) :
    ∃ m, d.allocate.run h = .ok (Word.taggedDWord x) (h'.withMemory m) ∧
      (h'.withMemory m).arena.Owns (f.put x [d.lo, d.hi]) := by
  obtain ⟨m, hrun, hold, hc⟩ := run_allocate_of_holds (d := d) hr (ho.holds hx) rfl
  refine ⟨m, ?_, ho.changedWithin hx rfl hold hc⟩
  rw [hrun, run_lift, Word.dwordPointerTo, if_pos hal]

theorem DWord.read_of_holds {d : DWord} {w : Word} {m : Memory}
    (hm : m.Holds w.dwordAddress [d.lo, d.hi]) : DWord.read w m = .ok d := by
  obtain ⟨hlo, hhi⟩ := Memory.holds_cons.1 hm
  have hhi := (Memory.holds_cons.1 hhi).1
  simp only [DWord.read, hlo, hhi, bind, Except.bind, pure, Except.pure]

theorem DWord.read_eq {d : DWord} (ho : h.arena.Owns f) (hal : x % dwordSize = 0)
    (hx : f x = some [d.lo, d.hi]) : DWord.read (Word.taggedDWord x) h.memory = .ok d := by
  apply read_of_holds
  rw [Word.dwordAddress_taggedDWord hal (ho.start_aligned hx).2]
  exact ho.holds hx

/-! ## Closures -/

section Fill

variable {code descriptor : Word}

/-- One capture is written. -/
theorem Closure.run_setCapture {c : Closure} {done rest : List Word} {v : Word}
    (hu : hd.uid = closureUid) (hl : done.length + rest.length + 1 = hd.nfields)
    (hm : h.memory.Holds c.object.address
      (hd.toWord :: code :: descriptor :: (done ++ v :: rest))) (w : Word) :
    ∃ m, (writing (c.setCapture done.length w)).run h = .ok () (h.withMemory m) ∧
      m.Holds c.object.address (hd.toWord :: code :: descriptor :: (done ++ w :: rest)) ∧
      h.memory.ChangedWithin ⟨c.object.address, hd.nfields + 3⟩ m := by
  have hn : hd.nfields ≤ 255 := hd.nfields_le
  have hlen : (code :: descriptor :: (done ++ v :: rest)).length = hd.nfields + 2 := by
    simp only [List.length_append, List.length_cons]
    omega
  have hfit : hd.Fits (code :: descriptor :: (done ++ v :: rest)) :=
    Header.fits_closure hu (by simp only [List.length_append, List.length_cons]; omega)
  obtain ⟨m, hw, hold, hc⟩ := HeapObject.write_of_getElem hm hfit
    (n := 2 + done.length) (by rw [hlen]; omega) w
  have hset : (code :: descriptor :: (done ++ v :: rest)).set (2 + done.length) w =
      code :: descriptor :: (done ++ w :: rest) := by
    rw [Nat.add_comm]
    simp
  rw [hset] at hold
  rw [hlen] at hc
  refine ⟨m, run_writing_of_ok ?_, hold, hc⟩
  rw [setCapture_eq_write c (by simp only [wordLimit]; omega), Nat.add_comm done.length 3]
  rw [show 3 + done.length = 2 + done.length + 1 by omega]
  exact hw

/-- The words at the positions are written into the captures one by one. The first position that
there is no word at stops it, with the captures in front of it written. -/
theorem Closure.run_fill {c : Closure} {done rest : List Word} {positions : List Nat}
    (hu : hd.uid = closureUid) (hl : done.length + rest.length = hd.nfields)
    (hp : positions.length = rest.length)
    (hm : h.memory.Holds c.object.address (hd.toWord :: code :: descriptor :: (done ++ rest))) :
    ∃ m ws, ws.length = hd.nfields ∧
      m.Holds c.object.address (hd.toWord :: code :: descriptor :: ws) ∧
      h.memory.ChangedWithin ⟨c.object.address, hd.nfields + 3⟩ m ∧
      ((∃ us, positions.mapM h.roots.read = .ok us ∧ ws = done ++ us ∧
          (c.fill done.length positions).run h = .ok () (h.withMemory m)) ∨
        ∃ e, positions.mapM h.roots.read = .error e ∧
          (c.fill done.length positions).run h = .error e (h.withMemory m)) := by
  -- Captures in front of the position are written, those from it on are what they were.
  induction positions generalizing h done rest with
  | nil =>
    obtain rfl : rest = [] := List.length_eq_zero_iff.1 hp.symm
    exact ⟨h.memory, done ++ [], by simpa using hl, hm, .refl _ _, .inl ⟨[], rfl, rfl, rfl⟩⟩
  | cons i positions ih =>
    obtain ⟨v, rest, rfl⟩ := List.exists_cons_of_length_eq_add_one hp.symm
    rw [List.length_cons] at hl
    cases hr : h.roots.read i with
    | error e =>
      refine ⟨h.memory, done ++ v :: rest, by simp; omega, hm, .refl _ _, .inr ⟨e, ?_, ?_⟩⟩
      · exact Roots.mapM_read_cons_of_error hr
      · rw [fill, run_bind, run_root, hr]
        rfl
    | ok w =>
      obtain ⟨m, hset, hold, hc⟩ := run_setCapture hu (by omega) hm w
      have hlen : (done ++ [w]).length = done.length + 1 := by simp
      have hnext : (h.withMemory m).memory.Holds c.object.address
          (hd.toWord :: code :: descriptor :: ((done ++ [w]) ++ rest)) := by
        rw [List.append_assoc]
        exact hold
      obtain ⟨n, ws, hws, hold', hc', hrest⟩ :=
        ih (by rw [hlen]; omega) (by simpa using hp) hnext
      rw [hlen] at hrest
      have hstep : (c.fill done.length (i :: positions)).run h =
          (c.fill (done.length + 1) positions).run (h.withMemory m) := by
        rw [fill, run_bind, run_root, hr]
        simp only
        rw [run_bind, hset]
      refine ⟨n, ws, hws, hold', hc.trans hc', ?_⟩
      rw [hstep, Roots.mapM_read_cons_of_ok hr]
      rcases hrest with ⟨us, hus, rfl, hrun⟩ | ⟨e, he, hrun⟩
      · have hus : positions.mapM h.roots.read = .ok us := hus
        rw [hus]
        exact .inl ⟨w :: us, rfl, by simp, hrun⟩
      · have he : positions.mapM h.roots.read = .error e := he
        rw [he]
        exact .inr ⟨e, rfl, hrun⟩

end Fill

theorem Closure.run_allocate_of_refused {code descriptor : Word} {captures : List Nat} {e : Fault}
    (hh : Header.ofFields? closureUid captures.length = .error e) :
    (Closure.allocate code descriptor captures).run h = .error e h := by
  rw [Closure.allocate, run_bind, run_lift, hh]

theorem Closure.run_allocate_of_error {code descriptor : Word} {captures : List Nat} {e : Fault}
    (hh : Header.ofFields? closureUid captures.length = .ok hd)
    (hr : (Heap.allocate (.words (1 + closureExtraSlots + captures.length))).run h = .error e h') :
    (Closure.allocate code descriptor captures).run h = .error e h' := by
  rw [Closure.allocate, run_bind, run_lift, hh]
  simp only
  rw [run_bind, hr]

/-- Header, code and descriptor are written in front of the captures. -/
theorem Closure.run_begin (code descriptor : Word) (hu : hd.uid = closureUid) {u v w : Word}
    {ws : List Word} (hl : ws.length = hd.nfields)
    (hm : h.memory.Holds x (u :: v :: w :: ws)) :
    ∃ m, m.Holds x (hd.toWord :: code :: descriptor :: ws) ∧
      h.memory.ChangedWithin ⟨x, hd.nfields + 3⟩ m ∧
      ∀ k : HeapObject → HeapM Closure, (do
        let o ← place x hd
        writing (o.write 1 code)
        writing (o.write 2 descriptor)
        k o : HeapM Closure).run h = (k ⟨x⟩).run (h.withMemory m) := by
  obtain ⟨m₁, hm₁, hold₁, hc₁⟩ := run_place hm hd
  obtain ⟨m₂, hm₂, hold₂, hc₂⟩ := HeapObject.write_of_getElem (o := ⟨x⟩) hold₁
    (Header.fits_closure hu hl) (n := 0) (Nat.succ_pos _) code
  obtain ⟨m₃, hm₃, hold₃, hc₃⟩ := HeapObject.write_of_getElem (o := ⟨x⟩) hold₂
    (Header.fits_closure hu hl) (n := 1) (Nat.succ_lt_succ (Nat.succ_pos _)) descriptor
  refine ⟨m₃, hold₃, hl ▸ (hc₁.trans hc₂).trans hc₃, ?_⟩
  intro k
  rw [run_bind, hm₁]
  simp only
  rw [run_bind, run_writing_of_ok (h := h.withMemory m₁) hm₂]
  simp only
  rw [run_bind, run_writing_of_ok (h := (h.withMemory m₁).withMemory m₂) hm₃]
  rfl

/-- The captures are taken from the roots that the request left. -/
theorem Closure.run_allocate_of_holds (code descriptor : Word) {captures : List Nat}
    {us : List Word} (hh : Header.ofFields? closureUid captures.length = .ok hd)
    (hr : (Heap.allocate (.words (1 + closureExtraSlots + captures.length))).run h = .ok x h')
    (hm : h'.memory.Holds x us) (hl : us.length = captures.length + 3) :
    ∃ m ws, ws.length = captures.length ∧ m.Holds x (hd.toWord :: code :: descriptor :: ws) ∧
      h'.memory.ChangedWithin ⟨x, captures.length + 3⟩ m ∧
      ((captures.mapM h'.roots.read = .ok ws ∧
          (Closure.allocate code descriptor captures).run h = .ok ⟨⟨x⟩⟩ (h'.withMemory m)) ∨
        ∃ e, captures.mapM h'.roots.read = .error e ∧
          (Closure.allocate code descriptor captures).run h = .error e (h'.withMemory m)) := by
  obtain ⟨hu, hn, -⟩ := Header.ofFields?_eq_ok hh
  obtain ⟨u, v, w, vs, rfl⟩ : ∃ u v w vs, us = u :: v :: w :: vs := by
    match us, hl with
    | u :: v :: w :: vs, _ => exact ⟨u, v, w, vs, rfl⟩
  have hlen : vs.length = captures.length := by simpa using hl
  obtain ⟨m₁, hold₁, hc₁, hbegin⟩ := Closure.run_begin code descriptor hu (hlen.trans hn.symm) hm
  let c : Closure := ⟨⟨x⟩⟩
  have hstart : (h'.withMemory m₁).memory.Holds c.object.address
      (hd.toWord :: code :: descriptor :: ([] ++ vs)) := hold₁
  obtain ⟨m, ws, hws, hold, hc, hrest⟩ := Closure.run_fill hu
    (by rw [List.length_nil, Nat.zero_add, hlen, hn]) hlen.symm hstart
  have hrun : (Closure.allocate code descriptor captures).run h =
      (do c.fill 0 captures; return c : HeapM Closure).run (h'.withMemory m₁) := by
    rw [Closure.allocate, run_bind, run_lift, hh]
    simp only
    rw [run_bind, hr]
    exact hbegin _
  rw [hn] at hc₁ hc hws
  refine ⟨m, ws, hws, hold, hc₁.trans hc, ?_⟩
  rw [hrun, run_bind]
  rcases hrest with ⟨us, hus, rfl, hfill⟩ | ⟨e, he, hfill⟩
  · exact .inl ⟨hus, by rw [List.length_nil] at hfill; rw [hfill]; rfl⟩
  · exact .inr ⟨e, he, by rw [List.length_nil] at hfill; rw [hfill]; rfl⟩

theorem Closure.run_allocate_of_ok (code descriptor : Word) {captures : List Nat}
    (hh : Header.ofFields? closureUid captures.length = .ok hd)
    (hr : (Heap.allocate (.words (1 + closureExtraSlots + captures.length))).run h = .ok x h')
    (ho : h'.arena.Owns f)
    (hx : f x = some (List.replicate (1 + closureExtraSlots + captures.length) Word.zero)) :
    ∃ m ws, ws.length = captures.length ∧
      (h'.withMemory m).arena.Owns (f.put x (hd.toWord :: code :: descriptor :: ws)) ∧
      ((captures.mapM h'.roots.read = .ok ws ∧
          (Closure.allocate code descriptor captures).run h = .ok ⟨⟨x⟩⟩ (h'.withMemory m)) ∨
        ∃ e, captures.mapM h'.roots.read = .error e ∧
          (Closure.allocate code descriptor captures).run h = .error e (h'.withMemory m)) := by
  have hsize : 1 + closureExtraSlots + captures.length = captures.length + 3 := by
    simp only [closureExtraSlots]
    omega
  have hlen : (List.replicate (1 + closureExtraSlots + captures.length) Word.zero).length =
      captures.length + 3 := by rw [List.length_replicate, hsize]
  obtain ⟨m, ws, hws, hold, hc, hrun⟩ :=
    run_allocate_of_holds code descriptor hh hr (ho.holds hx) hlen
  refine ⟨m, ws, hws, ho.changedWithin hx ?_ hold (hlen ▸ hc), hrun⟩
  rw [hlen, List.length_cons, List.length_cons, List.length_cons, hws]

end TaggedHeap
