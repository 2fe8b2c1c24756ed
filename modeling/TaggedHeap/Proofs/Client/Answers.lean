import TaggedHeap.Proofs.Client.Items

/-!
# Answers about what the roots hold

An operation is determined when the items alone say what it answers and which items it leaves. All
operations on a root are: they find the object through the root, and its words and header are those
of the item.
-/

namespace TaggedHeap.Client

open Heap Script

/-- Over the items, the action answers the same and leaves the same items in every heap of the
configuration, unless the address space is exhausted. -/
def Determined (c : ArenaConfig) (items : List Item) (x : HeapM Answer) : Prop :=
  ∃ result items', ∀ h f, h.arena.config = c → Represents h items f →
    (outcome x h).1 = .error .exhausted ∨
      ∃ g, (outcome x h).1 = result ∧ (outcome x h).2.arena.config = c ∧
        Represents (outcome x h).2 items' g

variable {c : ArenaConfig} {items : List Item} {i : Nat}

theorem outcome_of_ok {α : Type} {x : HeapM α} {h h' : Heap} {a : α} (hx : x.run h = .ok a h') :
    outcome x h = (.ok a, h') := by
  rw [outcome, hx]

theorem outcome_of_error {α : Type} {x : HeapM α} {h h' : Heap} {e : Fault}
    (hx : x.run h = .error e h') : outcome x h = (.error e, h') := by
  rw [outcome, hx]

theorem Determined.of_unchanged {x : HeapM Answer} (result : Except Fault Answer)
    (hx : ∀ h f, Represents h items f → outcome x h = (result, h)) : Determined c items x := by
  refine ⟨result, items, fun h f hc hr => .inr ⟨f, ?_⟩⟩
  rw [hx h f hr]
  exact ⟨rfl, hc, hr⟩

/-! ## Finding the object -/

/-- The object stands at the root in a heap that holds the items. -/
structure Found (h : Heap) (f : Contents) (i : Nat) (w : Word) (hd : Header) (ws : List Word) :
    Prop where
  root : h.roots[i]? = some w
  pointer : w.kind = .pointer
  block : f w.toNat = some (hd.toWord :: ws)
  fits : hd.Fits ws
  terminated : hd.uid = cstringUid → 0 ∈ ws.flatMap Word.bytes

theorem eq_ok_of_mem {α : Type} {x : Except Fault α} {a : α} (h : a ∈ x.toOption) : x = .ok a := by
  cases x with
  | ok b => exact congrArg Except.ok (Option.some.inj h)
  | error e => cases h

theorem Represents.of_onObject {h : Heap} {f : Contents} (hr : Represents h items f)
    {p : Header → Prop} (hp : OnObject h i p) :
    items.length ≤ i ∨ ∃ hd ws, items[i]? = some (.object hd ws) ∧ p hd := by
  rcases Nat.lt_or_ge i items.length with hlt | hge
  · obtain ⟨w, hw, hs⟩ := hr.root (List.getElem?_eq_getElem hlt)
    obtain ⟨o, ho, hd, hhd, hpd⟩ := hp w hw
    have ho := eq_ok_of_mem ho
    have hhd := eq_ok_of_mem hhd
    have hkind : w.kind = .pointer := by
      rw [← Word.isPointer_iff]
      unfold HeapObject.ofWord at ho
      split at ho
      · assumption
      · cases ho
    rw [HeapObject.ofWord_of_pointer hkind] at ho
    obtain rfl := Except.ok.inj ho
    obtain ⟨item, hitem, hs⟩ := hr.item hw
    obtain ⟨hd', ws, rfl, hf, -⟩ := hs.of_pointer hkind
    have heq := HeapObject.header_eq (o := ⟨w.toNat⟩) (hr.owns.holds hf)
    obtain rfl : hd' = hd := Except.ok.inj (heq.symm.trans hhd)
    exact .inr ⟨hd', ws, hitem, hpd⟩
  · exact .inl hge

theorem run_object_root (i : Nat) (h : Heap) :
    ((Operand.root i).object []).run h =
      match h.roots.read i with
      | .ok w => (lift (HeapObject.ofWord w)).run h
      | .error e => .error e h := by
  rw [Operand.object, run_bind, Operand.eval, run_root]
  cases h.roots.read i <;> rfl

/-- What follows on finding the object at a root is determined if it is for every such object. -/
theorem determined_object {k : HeapObject → HeapM Answer} {p : Header → Prop}
    (hi : items.length ≤ i ∨ ∃ hd ws, items[i]? = some (.object hd ws) ∧ p hd)
    (hk : ∀ hd ws, items[i]? = some (.object hd ws) → p hd → ∃ result items', ∀ h f w,
      Represents h items f → Found h f i w hd ws →
      ∃ g, (outcome (k ⟨w.toNat⟩) h).1 = result ∧
        (outcome (k ⟨w.toNat⟩) h).2.arena.config = h.arena.config ∧
        Represents (outcome (k ⟨w.toNat⟩) h).2 items' g) :
    Determined c items (do k (← (Operand.root i).object [])) := by
  rcases hi with hge | ⟨hd, ws, hitem, hp⟩
  · refine Determined.of_unchanged (.error (.violated (.rootOutOfBounds items.length i)))
      fun h f hr => outcome_of_error ?_
    have hnone : h.roots[i]? = none := List.getElem?_eq_none (hr.length_eq ▸ hge)
    rw [run_bind, run_object_root, Roots.read_of_none hnone, hr.length_eq]
  · obtain ⟨result, items', hres⟩ := hk hd ws hitem hp
    refine ⟨result, items', fun h f hc hr => .inr ?_⟩
    obtain ⟨w, hw, hkind, hf, hfit, hz⟩ := hr.root hitem
    have hrun : outcome (do k (← (Operand.root i).object [])) h = outcome (k ⟨w.toNat⟩) h := by
      rw [outcome, run_bind, run_object_root, Roots.read_of_some hw]
      simp only
      rw [HeapObject.ofWord_of_pointer hkind, run_lift]
      rfl
    obtain ⟨g, hfst, hcfg, hrep⟩ := hres h f w hr ⟨hw, hkind, hf, hfit, hz⟩
    rw [hrun]
    exact ⟨g, hfst, hcfg.trans hc, hrep⟩

/-! ## Reading -/

/-- What a query answers about an object with this header and these words behind it. -/
def answerTo (hd : Header) (ws : List Word) : Query → Answer
  | .header => .header hd
  | .uid | .uncheckedUid => .count hd.uid
  | .fieldCount | .uncheckedFieldCount | .captureCount => .count hd.nfields
  | .slotCount => .count hd.layout.slotCount
  | .layout => .layout hd.layout
  | .references => .range hd.layout.referencesStart hd.layout.referencesEnd
  | .marked => .flag hd.marked
  | .arguments => .words (ws.take hd.nfields)
  | .code => .address (ws[0]?.getD Word.zero).toNat
  | .descriptor => .number (ws[1]?.getD Word.zero).toNat
  | .capacity => .count (hd.nfields * wordSize)
  | .bytes => .bytes ((ws.flatMap Word.bytes).takeWhile (· != 0))
  | .pointer | .debug | .asClosure | .asCString => .done

section Reading

variable {h : Heap} {f : Contents} {w : Word} {hd : Header} {ws : List Word}
  (hr : Represents h items f) (ho : Found h f i w hd ws)
include hr ho

theorem Found.holds : h.memory.Holds w.toNat (hd.toWord :: ws) := hr.owns.holds ho.block

theorem Found.header_eq : (HeapObject.mk w.toNat).header h.memory = .ok hd :=
  HeapObject.header_eq (o := ⟨w.toNat⟩) (ho.holds hr)

theorem Found.run_ofObject (hu : hd.uid = closureUid) :
    (reading (Closure.ofObject ⟨w.toNat⟩)).run h = .ok ⟨⟨w.toNat⟩⟩ h := by
  apply run_reading_of_ok
  rw [Closure.ofObject, ho.header_eq hr]
  simp only [Header.isClosure, hu, beq_self_eq_true, bind, Except.bind, pure, Except.pure, if_true]

theorem Found.run_ofObject_cstring (hu : hd.uid = cstringUid) :
    (reading (CString.ofObject ⟨w.toNat⟩)).run h = .ok ⟨⟨w.toNat⟩⟩ h := by
  apply run_reading_of_ok
  rw [CString.ofObject, ho.header_eq hr]
  simp only [Header.isCString, hu, beq_self_eq_true, bind, Except.bind, pure, Except.pure, if_true]

theorem Found.run_read {n : Nat} {v : Word} (hn : ws[n]? = some v) :
    (reading (HeapObject.read ⟨w.toNat⟩ (n + 1))).run h = .ok v h :=
  run_reading_of_ok (HeapObject.read_of_getElem? (o := ⟨w.toNat⟩) (ho.holds hr) ho.fits hn)

omit hr in
theorem Found.closure_words (hu : hd.uid = closureUid) :
    ∃ code descriptor, ws[0]? = some code ∧ ws[1]? = some descriptor := by
  have hfit := ho.fits
  simp only [Header.Fits, Header.layout, Layout.ofHeader, Header.isClosure, hu, beq_self_eq_true,
    if_true, Layout.slotCount, closureExtraSlots] at hfit
  exact ⟨ws[0], ws[1], List.getElem?_eq_getElem (by omega), List.getElem?_eq_getElem (by omega)⟩

theorem Found.run_query {q : Query} (hs : Suits hd q) :
    (q.eval ⟨w.toNat⟩).run h = .ok (answerTo hd ws q) h := by
  have hheader := ho.header_eq hr
  have hholds := ho.holds hr
  have hreading : (reading (HeapObject.header ⟨w.toNat⟩)).run h = .ok hd h :=
    run_reading_of_ok hheader
  cases q with
  | header | uid | fieldCount =>
    rw [Query.eval, run_bind, hreading]
    rfl
  | slotCount =>
    rw [Query.eval, run_bind,
      run_reading_of_ok (HeapObject.slotCount_eq (o := ⟨w.toNat⟩) hholds)]
    rfl
  | layout | references =>
    rw [Query.eval, run_bind, run_reading_of_ok (HeapObject.layout_eq (o := ⟨w.toNat⟩) hholds)]
    rfl
  | marked =>
    rw [Query.eval, run_bind, run_reading_of_ok (HeapObject.isMarked_eq (o := ⟨w.toNat⟩) hholds)]
    rfl
  | arguments =>
    rw [Query.eval, run_bind,
      run_reading_of_ok (HeapObject.arguments_eq (o := ⟨w.toNat⟩) hholds ho.fits)]
    rfl
  | uncheckedUid | uncheckedFieldCount =>
    rw [Query.eval, run_bind,
      run_reading_of_ok (HeapObject.uncheckedHeader_eq (o := ⟨w.toNat⟩) hholds)]
    rfl
  | code =>
    obtain ⟨code, -, hcode, -⟩ := ho.closure_words hs
    rw [Query.eval, run_bind, ho.run_ofObject hr hs]
    simp only
    rw [run_bind]
    have hread : (reading (Closure.code ⟨⟨w.toNat⟩⟩)).run h = .ok code h := ho.run_read hr hcode
    rw [hread, answerTo, hcode]
    rfl
  | descriptor =>
    obtain ⟨-, descriptor, -, hdesc⟩ := ho.closure_words hs
    rw [Query.eval, run_bind, ho.run_ofObject hr hs]
    simp only
    rw [run_bind]
    have hread : (reading (Closure.descriptor ⟨⟨w.toNat⟩⟩)).run h = .ok descriptor h :=
      ho.run_read hr hdesc
    rw [hread, answerTo, hdesc]
    rfl
  | captureCount =>
    rw [Query.eval, run_bind, ho.run_ofObject hr hs]
    simp only
    have hcount : Closure.captureCount ⟨⟨w.toNat⟩⟩ h.memory = .ok hd.nfields := by
      rw [Closure.captureCount, hheader]
      rfl
    rw [run_bind, run_reading_of_ok hcount]
    rfl
  | capacity =>
    rw [Query.eval, run_bind, ho.run_ofObject_cstring hr hs]
    simp only
    have hcount : CString.capacity ⟨⟨w.toNat⟩⟩ h.memory = .ok (hd.nfields * wordSize) := by
      rw [CString.capacity, hheader]
      rfl
    rw [run_bind, run_reading_of_ok hcount]
    rfl
  | bytes =>
    have hb := CString.bytes_eq hr.owns (s := ⟨⟨w.toNat⟩⟩) ho.block (ho.terminated hs)
    rw [Query.eval, run_bind, ho.run_ofObject_cstring hr hs]
    simp only
    rw [run_bind, run_reading_of_ok hb]
    rfl
  | pointer | debug | asClosure | asCString => exact absurd hs id

theorem Found.read_eq (n : Nat) :
    (HeapObject.mk w.toNat).read (n + 1) h.memory = wordAt ws n :=
  HeapObject.read_succ (o := ⟨w.toNat⟩) (ho.holds hr) ho.fits n

/-- A slot behind the header is written, and the item changes with it. -/
theorem Found.run_write (hu : hd.uid ≠ cstringUid) {n : Nat} (hn : n < ws.length) (v : Word) :
    ∃ m, (writing (HeapObject.write ⟨w.toNat⟩ (n + 1) v)).run h = .ok () (h.withMemory m) ∧
      Represents (h.withMemory m) (items.set i (.object hd (ws.set n v)))
        (f.put w.toNat (hd.toWord :: ws.set n v)) := by
  obtain ⟨m, hm, hown⟩ :=
    HeapObject.write_eq_ok (o := ⟨w.toNat⟩) hr.owns ho.block ho.fits hn v
  refine ⟨m, run_writing_of_ok hm, hr.update ho.root ho.pointer hown ?_ fun he => absurd he hu⟩
  simpa [Header.Fits] using ho.fits

theorem Found.run_write_of_le {n : Nat} (hn : ws.length ≤ n) (v : Word) :
    (writing (HeapObject.write ⟨w.toNat⟩ (n + 1) v)).run h =
      .error (.violated (.slotOutOfBounds (n + 1) (ws.length + 1))) h :=
  run_writing_of_error (HeapObject.write_of_le (o := ⟨w.toNat⟩) hr.owns ho.block ho.fits
    (Nat.lt_succ_of_le hn) v)

end Reading

/-! ## Operations on a root -/

theorem outcome_then {α β : Type} {x : HeapM α} {h h' : Heap} {a : α} (hx : x.run h = .ok a h')
    (b : α → β) : outcome (x >>= fun a => pure (b a)) h = (.ok (b a), h') := by
  apply outcome_of_ok
  rw [run_bind, hx]
  rfl

theorem outcome_then_of_error {α β : Type} {x : HeapM α} {h h' : Heap} {e : Fault}
    (hx : x.run h = .error e h') (b : α → β) :
    outcome (x >>= fun a => pure (b a)) h = (.error e, h') := by
  apply outcome_of_error
  rw [run_bind, hx]

theorem determined_ask {q : Query}
    (hi : items.length ≤ i ∨ ∃ hd ws, items[i]? = some (.object hd ws) ∧ Suits hd q) :
    Determined c items (Op.ask i q).run := by
  refine determined_object hi fun hd ws _ hs => ⟨.ok (answerTo hd ws q), items, ?_⟩
  intro h f w hr ho
  rw [outcome_of_ok (ho.run_query hr hs)]
  exact ⟨f, rfl, rfl, hr⟩

theorem determined_reading {p : Header → Prop} (g : HeapObject → HeapM Word)
    (hi : items.length ≤ i ∨ ∃ hd ws, items[i]? = some (.object hd ws) ∧ p hd)
    (hg : ∀ hd ws, p hd → ∃ r : Except Fault Word, ∀ h f w, Represents h items f →
      Found h f i w hd ws → outcome (g ⟨w.toNat⟩) h = (r, h)) :
    Determined c items (do
      let o ← (Operand.root i).object []
      let v ← g o
      return .word v) := by
  refine determined_object (k := fun o => do return .word (← g o)) hi fun hd ws _ hp => ?_
  obtain ⟨r, hg⟩ := hg hd ws hp
  refine ⟨Answer.word <$> r, items, ?_⟩
  intro h f w hr ho
  have hout : outcome (do return .word (← g ⟨w.toNat⟩)) h = (Answer.word <$> r, h) := by
    have hgr := hg h f w hr ho
    rw [outcome, run_bind]
    rw [outcome] at hgr
    cases hrun : (g ⟨w.toNat⟩).run h with
    | ok v h' =>
      rw [hrun] at hgr
      obtain ⟨rfl, rfl⟩ := Prod.mk.inj hgr
      rfl
    | error e h' =>
      rw [hrun] at hgr
      obtain ⟨rfl, rfl⟩ := Prod.mk.inj hgr
      rfl
  rw [hout]
  exact ⟨f, rfl, rfl, hr⟩

end TaggedHeap.Client
