import TaggedHeap.Proofs.Heap.Construction

/-!
# Footprints

The accessors of an object go by its header, and the header says how many slots there are. How much
memory the object was given was settled before, when it was requested. The two agree for closures,
for strings, and for constructors of any uid but that of closures: there the header promises two
slots more than were requested, and they belong to whatever is handed out next. Nothing is assumed of
the heap, so the lemmas hold under every discipline and whatever memory held before.
-/

namespace TaggedHeap

/-- The words asked for last, given those asked for before the record. -/
def Record.requested (before : Option Nat) : Record → Option Nat
  | .wordsRequested n _ => some n
  | .dwordsRequested n _ => some (n * 2)
  | _ => before

/-- The words that the last request of a log asked for. -/
def requested? (log : List Record) : Option Nat := log.foldl Record.requested none

/-- The heap is the one that a request of so many words leads to, and `x` the answer of the request.
What memory holds may have changed since. -/
def Heap.Requested (h : Heap) (n x : Nat) (h' : Heap) : Prop :=
  ∃ k m, (allocate (.words n)).run h = .ok x k ∧ k.withMemory m = h'

/-- The object keeps to the `n` words from its address on: these are its slots, the references are
among them and behind the header, and an access by slot that passes its check has to do with no other
word. -/
structure HeapObject.Confined (o : HeapObject) (n : Nat) (m : Memory) : Prop where
  slotCount_eq : o.slotCount m = .ok n
  references : ∃ l, o.layout m = .ok l ∧ 1 ≤ l.referencesStart ∧
    l.referencesStart ≤ l.referencesEnd ∧ l.referencesEnd ≤ n
  slot_within : ∀ i x, o.slot i m = .ok x →
    o.address ≤ x ∧ x + wordSize ≤ Span.stop ⟨o.address, n⟩
  read_within : ∀ m' i, (∀ x, o.address ≤ x → x < Span.stop ⟨o.address, n⟩ → m'.read x = m.read x) →
    o.read i m' = o.read i m
  write_within : ∀ m' i w, o.write i w m = .ok m' → m.ChangedWithin ⟨o.address, n⟩ m'

theorem Heap.run_bind_eq_ok_iff {α β : Type} {x : HeapM α} {f : α → HeapM β} {h h' : Heap} {b : β} :
    (x >>= f).run h = .ok b h' ↔ ∃ a k, x.run h = .ok a k ∧ (f a).run k = .ok b h' := by
  rw [run_bind]
  constructor
  · intro hr
    split at hr
    case h_1 a k hx => exact ⟨a, k, hx, hr⟩
    case h_2 => cases hr
  · rintro ⟨a, k, hx, hf⟩
    rw [hx]
    exact hf

/-! ## What a header gives -/

theorem Header.slotCount_layout (hd : Header) :
    hd.layout.slotCount = if hd.uid = closureUid then hd.nfields + 3 else hd.nfields + 1 := by
  simp only [Header.layout, Layout.ofHeader, Header.isClosure, beq_iff_eq]
  split
  case isTrue => simp only [Layout.slotCount, closureExtraSlots]; omega
  case isFalse => split <;> simp only [Layout.slotCount] <;> omega

theorem Layout.references_within (l : Layout) :
    1 ≤ l.referencesStart ∧ l.referencesStart ≤ l.referencesEnd ∧ l.referencesEnd ≤ l.slotCount := by
  refine ⟨?_, ?_, l.referencesEnd_le_slotCount⟩ <;>
    cases l <;> simp [referencesStart, referencesEnd]

namespace HeapObject

variable {o : HeapObject} {m m' : Memory} {hd : Header}

theorem header_congr (h : m'.read o.address = m.read o.address) : o.header m' = o.header m := by
  rw [header, header, h]

theorem slotCount_of_header (h : o.header m = .ok hd) : o.slotCount m = .ok hd.layout.slotCount := by
  rw [slotCount, layout, h]
  rfl

theorem slot_eq_ok {i x : Nat} (h : o.slot i m = .ok x) :
    ∃ n, o.slotCount m = .ok n ∧ i < n ∧ x = o.slotAddress i := by
  rw [slot, bind_eq_ok_iff] at h
  obtain ⟨n, hn, h⟩ := h
  split at h
  case isFalse => cases h
  case isTrue hi => exact ⟨n, hn, hi, (Except.ok.inj h).symm⟩

/-- The slots of the header are all that accesses have to do with. -/
theorem confined_of_header (h : o.header m = .ok hd) : o.Confined hd.layout.slotCount m := by
  have hpos := Layout.nfields_lt_slotCount hd
  have hslot : ∀ i x, o.slot i m = .ok x →
      o.address ≤ x ∧ x + wordSize ≤ Span.stop ⟨o.address, hd.layout.slotCount⟩ := by
    intro i x hx
    obtain ⟨n, hn, hi, rfl⟩ := slot_eq_ok hx
    obtain rfl := Except.ok.inj (hn.symm.trans (slotCount_of_header h))
    simp only [slotAddress, Span.stop, wordSize]
    omega
  refine ⟨slotCount_of_header h, ⟨hd.layout, ?_, Layout.references_within _⟩, hslot, ?_, ?_⟩
  · rw [layout, h]
    rfl
  · intro m' i hm
    have hstart : m'.read o.address = m.read o.address :=
      hm _ (Nat.le_refl _) (by simp only [Span.stop, wordSize]; omega)
    have hsame : o.slot i m' = o.slot i m := by
      simp only [slot, slotCount, layout, header_congr hstart]
    rw [read, read, hsame]
    cases hx : o.slot i m with
    | error e => rfl
    | ok x =>
      obtain ⟨hlow, hhigh⟩ := hslot i x hx
      exact hm x hlow (by simp only [wordSize] at hhigh; omega)
  · intro m' i w hw
    rw [write, bind_eq_ok_iff] at hw
    obtain ⟨x, hx, hw⟩ := hw
    obtain ⟨hlow, hhigh⟩ := hslot i x hx
    exact (Memory.changedWithin_write hw).mono hlow hhigh

theorem Confined.slotCount_unique {n k : Nat} (hn : o.Confined n m) (hk : o.slotCount m = .ok k) :
    n = k :=
  Except.ok.inj (hn.slotCount_eq.symm.trans hk)

/-! ## The header stays while the slots behind it are written -/

theorem read_start_of_write {i : Nat} {w : Word} (hi : 0 < i) (h : o.write i w m = .ok m') :
    m'.read o.address = m.read o.address := by
  rw [write, bind_eq_ok_iff] at h
  obtain ⟨x, hx, h⟩ := h
  obtain ⟨n, -, -, rfl⟩ := slot_eq_ok hx
  rw [Memory.read_write h, if_neg]
  simp only [slotAddress, wordSize]
  omega

end HeapObject

theorem Memory.read_of_writeMany {m m' : Memory} {a b : Nat} {ws : List Word} (hb : b < a)
    (h : m.writeMany a ws = .ok m') : m'.read b = m.read b :=
  (changedWithin_writeMany h).read_eq b (.inl hb)

theorem Closure.read_start_of_setCapture {c : Closure} {m m' : Memory} {i : Nat} {w : Word}
    (h : c.setCapture i w m = .ok m') : m'.read c.object.address = m.read c.object.address := by
  rw [setCapture, bind_eq_ok_iff] at h
  obtain ⟨n, hn, h⟩ := h
  obtain ⟨-, rfl⟩ := Count.add_eq_ok_iff.1 hn
  exact HeapObject.read_start_of_write (by simp only [closureExtraSlots]; omega) h

/-! ## What an allocation requests and what header it leaves -/

namespace Heap

variable {h h' : Heap}

theorem run_lift_eq_ok_iff {α : Type} {x : Except Fault α} {a : α} :
    (lift x).run h = .ok a h' ↔ x = .ok a ∧ h = h' := by
  rw [run_lift]
  cases x <;> simp

theorem run_writing_eq_ok_iff {f : Memory → Except Fault Memory} {u : Unit} :
    (writing f).run h = .ok u h' ↔ ∃ m, f h.memory = .ok m ∧ h.withMemory m = h' := by
  rw [run_writing]
  cases f h.memory <;> simp [withMemory]

theorem run_place_eq_ok {x : Nat} {hd : Header} {o : HeapObject}
    (hr : (place x hd).run h = .ok o h') :
    o.address = x ∧ ∃ m, h.withMemory m = h' ∧ m.read x = .ok hd.toWord := by
  rw [place, run_bind_eq_ok_iff] at hr
  obtain ⟨u, k, hw, hk⟩ := hr
  obtain ⟨m, hm, rfl⟩ := run_writing_eq_ok_iff.1 hw
  cases hk
  exact ⟨rfl, m, rfl, (Memory.read_write hm x).trans (if_pos rfl)⟩

theorem requested?_records (log : List Record) (a : Arena) (roots n : Nat) :
    requested? (log ++ a.records roots (.words n)) = some n := by
  rw [requested?, List.foldl_append, Arena.records, List.foldl_cons]
  split <;> rfl

theorem requested?_of_allocate {n x : Nat} (hr : (allocate (.words n)).run h = .ok x h') :
    requested? h'.log = some n := by
  rw [run_allocate] at hr
  split at hr
  case h_2 => cases hr
  case h_1 k _ =>
    rw [run_reserve] at hr
    split at hr
    case h_2 => cases hr
    case h_1 =>
      cases hr
      exact requested?_records _ _ _ _

/-- The log tells how many words were requested. -/
theorem Requested.iff_eq {n x : Nat} (hn : h.Requested n x h') (i : Nat) :
    h.Requested i x h' ↔ i = n := by
  have hlog : ∀ {i}, h.Requested i x h' → requested? h'.log = some i := by
    rintro i ⟨k, m, hk, rfl⟩
    have hi := requested?_of_allocate hk
    exact hi
  constructor
  · intro hi
    exact Option.some.inj ((hlog hi).symm.trans (hlog hn))
  · rintro rfl
    exact hn

end Heap

open Heap

variable {h h' : Heap}

theorem HeapObject.requested_of_allocate {uid nfields : Nat} {o : HeapObject}
    (hr : (HeapObject.allocate uid nfields).run h = .ok o h') :
    h.Requested (nfields + 1) o.address h' ∧
      ∃ hd, o.header h'.memory = .ok hd ∧ hd.uid = uid ∧ hd.nfields = nfields := by
  rw [HeapObject.allocate, run_bind_eq_ok_iff] at hr
  obtain ⟨hd, k, hl, hr⟩ := hr
  obtain ⟨hh, rfl⟩ := run_lift_eq_ok_iff.1 hl
  obtain ⟨hu, hn, -⟩ := Header.ofFields?_eq_ok hh
  obtain ⟨x, k, hx, hr⟩ := run_bind_eq_ok_iff.1 hr
  obtain ⟨rfl, m, rfl, hread⟩ := run_place_eq_ok hr
  refine ⟨⟨k, m, hx, rfl⟩, hd, ?_, hu, hn⟩
  exact header_of_read hread (Header.ofWord?_toWord hd)

theorem CString.requested_of_allocate {bytes : List UInt8} {s : CString}
    (hr : (CString.allocate bytes).run h = .ok s h') :
    h.Requested (wordsFor (bytes.length + 1) + 1) s.object.address h' ∧
      ∃ hd, s.object.header h'.memory = .ok hd ∧ hd.uid = cstringUid ∧
        hd.nfields = wordsFor (bytes.length + 1) := by
  rw [CString.allocate, run_bind_eq_ok_iff] at hr
  obtain ⟨hd, k, hl, hr⟩ := hr
  obtain ⟨hh, rfl⟩ := run_lift_eq_ok_iff.1 hl
  obtain ⟨-, hu, hn, -⟩ := CString.headerFor_eq_ok hh
  obtain ⟨x, k, hx, hr⟩ := run_bind_eq_ok_iff.1 hr
  obtain ⟨o, k', ho, hr⟩ := run_bind_eq_ok_iff.1 hr
  obtain ⟨rfl, m₁, rfl, hread⟩ := run_place_eq_ok ho
  obtain ⟨u, k'', hw, hr⟩ := run_bind_eq_ok_iff.1 hr
  obtain ⟨m, hm, rfl⟩ := run_writing_eq_ok_iff.1 hw
  cases hr
  rw [hn] at hx
  refine ⟨⟨k, m, hx, rfl⟩, hd, ?_, hu, hn⟩
  -- The bytes are written behind the header.
  have hbehind : o.address < o.slotAddress 1 := by
    simp only [HeapObject.slotAddress, wordSize]
    omega
  refine HeapObject.header_of_read ?_ (Header.ofWord?_toWord hd)
  exact (Memory.read_of_writeMany hbehind hm).trans hread

/-- Captures are written behind the header, and no request is made for them. -/
theorem Closure.run_fill_eq_ok {c : Closure} {n : Nat} {positions : List Nat} {u : Unit}
    (hr : (c.fill n positions).run h = .ok u h') :
    ∃ m, h.withMemory m = h' ∧ m.read c.object.address = h.memory.read c.object.address := by
  induction positions generalizing h n with
  | nil =>
    cases hr
    exact ⟨h'.memory, rfl, rfl⟩
  | cons i positions ih =>
    rw [fill, run_bind_eq_ok_iff] at hr
    obtain ⟨w, k, hw, hr⟩ := hr
    obtain ⟨v, k', hs, hr⟩ := run_bind_eq_ok_iff.1 hr
    obtain ⟨m, hm, rfl⟩ := run_writing_eq_ok_iff.1 hs
    obtain ⟨m', rfl, hread⟩ := ih hr
    rw [run_root] at hw
    split at hw
    case h_2 => cases hw
    case h_1 =>
      cases hw
      exact ⟨m', rfl, hread.trans (read_start_of_setCapture hm)⟩

theorem Closure.requested_of_allocate {code descriptor : Word} {captures : List Nat} {c : Closure}
    (hr : (Closure.allocate code descriptor captures).run h = .ok c h') :
    h.Requested (captures.length + 3) c.object.address h' ∧
      ∃ hd, c.object.header h'.memory = .ok hd ∧ hd.uid = closureUid ∧
        hd.nfields = captures.length := by
  rw [Closure.allocate, run_bind_eq_ok_iff] at hr
  obtain ⟨hd, k, hl, hr⟩ := hr
  obtain ⟨hh, rfl⟩ := run_lift_eq_ok_iff.1 hl
  obtain ⟨hu, hn, -⟩ := Header.ofFields?_eq_ok hh
  obtain ⟨x, k, hx, hr⟩ := run_bind_eq_ok_iff.1 hr
  obtain ⟨o, k₀, ho, hr⟩ := run_bind_eq_ok_iff.1 hr
  obtain ⟨rfl, m, rfl, hread⟩ := run_place_eq_ok ho
  obtain ⟨u₁, k₁, hcode, hr⟩ := run_bind_eq_ok_iff.1 hr
  obtain ⟨m₁, hm₁, rfl⟩ := run_writing_eq_ok_iff.1 hcode
  obtain ⟨u₂, k₂, hdesc, hr⟩ := run_bind_eq_ok_iff.1 hr
  obtain ⟨m₂, hm₂, rfl⟩ := run_writing_eq_ok_iff.1 hdesc
  obtain ⟨u₃, k₃, hfill, hr⟩ := run_bind_eq_ok_iff.1 hr
  obtain ⟨m₃, rfl, hread₃⟩ := Closure.run_fill_eq_ok hfill
  cases hr
  have hsize : 1 + closureExtraSlots + captures.length = captures.length + 3 := by
    simp only [closureExtraSlots]
    omega
  rw [hsize] at hx
  refine ⟨⟨k, m₃, hx, rfl⟩, hd, ?_, hu, hn⟩
  have h₁ := HeapObject.read_start_of_write Nat.one_pos hm₁
  have h₂ := HeapObject.read_start_of_write Nat.two_pos hm₂
  exact HeapObject.header_of_read (hread₃.trans (h₂.trans (h₁.trans hread)))
    (Header.ofWord?_toWord hd)

/-! ## Requests and slots -/

/-- Closures, strings and constructors of any uid but that of closures keep to the words that were
requested for them. A constructor with that uid is taken for a closure and has two slots too many. -/
theorem confined_to_request_iff (h : Heap) :
    (∀ uid nfields o h', (HeapObject.allocate uid nfields).run h = .ok o h' →
      (∀ n, h.Requested n o.address h' ↔ n = nfields + 1) ∧
      o.slotCount h'.memory = .ok (if uid = closureUid then nfields + 3 else nfields + 1) ∧
      (o.Confined (nfields + 1) h'.memory ↔ uid ≠ closureUid)) ∧
    (∀ code descriptor captures c h', (Closure.allocate code descriptor captures).run h = .ok c h' →
      ∃ size, (∀ n, h.Requested n c.object.address h' ↔ n = size) ∧
        c.object.Confined size h'.memory) ∧
    ∀ bytes s h', (CString.allocate bytes).run h = .ok s h' →
      ∃ size, (∀ n, h.Requested n s.object.address h' ↔ n = size) ∧
        s.object.Confined size h'.memory := by
  refine ⟨?_, ?_, ?_⟩
  · intro uid nfields o h' hr
    obtain ⟨hreq, hd, hh, rfl, rfl⟩ := HeapObject.requested_of_allocate hr
    have hslots := HeapObject.slotCount_of_header hh
    have hconf := HeapObject.confined_of_header hh
    rw [Header.slotCount_layout] at hslots hconf
    refine ⟨hreq.iff_eq, hslots, ?_, ?_⟩
    · intro hc hu
      rw [if_pos hu] at hslots
      have := hc.slotCount_unique hslots
      omega
    · intro hu
      rwa [if_neg hu] at hconf
  · intro code descriptor captures c h' hr
    obtain ⟨hreq, hd, hh, hu, hn⟩ := Closure.requested_of_allocate hr
    have hconf := HeapObject.confined_of_header hh
    rw [Header.slotCount_layout, if_pos hu, hn] at hconf
    exact ⟨_, hreq.iff_eq, hconf⟩
  · intro bytes s h' hr
    obtain ⟨hreq, hd, hh, hu, hn⟩ := CString.requested_of_allocate hr
    have hconf := HeapObject.confined_of_header hh
    rw [Header.slotCount_layout, if_neg (by rw [hu]; decide), hn] at hconf
    exact ⟨_, hreq.iff_eq, hconf⟩

/-- A constructor with the uid of closures and no fields is given one word and has three slots. A
write to the second one passes its check and takes away the header of the object made next. -/
theorem closure_uid_constructor_overwrites_neighbour :
    let start : Heap := { arena := { config := { chunkWords := 4 } } }
    (∃ o h', (HeapObject.allocate closureUid 0).run start = .ok o h' ∧
      start.Requested 1 o.address h' ∧ o.slotCount h'.memory = .ok 3) ∧
    ∃ h', (do
      let o ← HeapObject.allocate closureUid 0
      let next ← HeapObject.allocate 5 1
      writing (o.write 1 (.unboxed 3))
      reading next.header : HeapM Header).run start =
        .error (.violated (.notAHeader (Memory.origin + wordSize) 7)) h' :=
  ⟨⟨_, _, rfl, ⟨_, _, rfl, rfl⟩, rfl⟩, _, rfl⟩

end TaggedHeap
