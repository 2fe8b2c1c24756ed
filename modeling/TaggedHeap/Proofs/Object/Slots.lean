import TaggedHeap.Closure
import TaggedHeap.Proofs.Arena.Ownership

/-!
# Slots of an object that is known

Once the words of an object stand in memory, its header in front, every accessor answers from those
words alone: a slot below the slot count is the word at its position, any other is out of bounds.
-/

namespace TaggedHeap

/-- The mark is no part of the layout. -/
theorem Header.layout_congr {hd hd' : Header} (hu : hd.uid = hd'.uid)
    (hn : hd.nfields = hd'.nfields) : hd.layout = hd'.layout := by
  rcases hd with ⟨uid, nfields, marked, _, _⟩
  rcases hd' with ⟨uid', nfields', marked', _, _⟩
  obtain rfl : uid = uid' := hu
  obtain rfl : nfields = nfields' := hn
  rfl

theorem Layout.nfields_lt_slotCount (hd : Header) : hd.nfields < hd.layout.slotCount := by
  simp only [Header.layout, Layout.ofHeader]
  split
  case isTrue => simp only [slotCount, closureExtraSlots]; omega
  case isFalse => split <;> simp only [slotCount] <;> omega

theorem Layout.slotCount_le (hd : Header) : hd.layout.slotCount ≤ maxFields + 3 := by
  have hn : hd.nfields ≤ 255 := hd.nfields_le
  simp only [Header.layout, Layout.ofHeader, maxFields]
  split
  case isTrue => simp only [slotCount, closureExtraSlots]; omega
  case isFalse => split <;> simp only [slotCount] <;> omega

/-- The slots behind the header, for a header that gives so many. -/
def Header.Fits (hd : Header) (ws : List Word) : Prop := hd.layout.slotCount = ws.length + 1

/-- The word in a slot behind the header, for an object with these words there. -/
def wordAt (ws : List Word) (n : Nat) : Except Fault Word :=
  match ws[n]? with
  | some w => .ok w
  | none => .error (.violated (.slotOutOfBounds (n + 1) (ws.length + 1)))

namespace HeapObject

/-- The word is a variable here so that no check of this proof computes with a header word. -/
theorem header_of_read {m : Memory} {o : HeapObject} {w : Word} {hd : Header}
    (hr : m.read o.address = .ok w) (hw : Header.ofWord? w = some hd) : o.header m = .ok hd := by
  simp only [header, hr, bind, Except.bind, hw, pure, Except.pure]

theorem header_of_none {m : Memory} {o : HeapObject} {w : Word}
    (hr : m.read o.address = .ok w) (hw : Header.ofWord? w = none) :
    o.header m = .error (.violated (.notAHeader o.address w.toNat)) := by
  simp only [header, hr, bind, Except.bind, hw]

theorem uncheckedHeader_of_read {m : Memory} {o : HeapObject} {w : Word}
    (hr : m.read o.address = .ok w) : o.uncheckedHeader m = .ok (Header.ofLowBits w) := by
  rw [uncheckedHeader, hr]
  rfl

section Reading

variable {m : Memory} {o : HeapObject} {hd : Header} {ws : List Word}
  (h : m.Holds o.address (hd.toWord :: ws))
include h

theorem header_eq : o.header m = .ok hd :=
  header_of_read (Memory.holds_cons.1 h).1 (Header.ofWord?_toWord hd)

theorem uncheckedHeader_eq : o.uncheckedHeader m = .ok hd :=
  (uncheckedHeader_of_read (Memory.holds_cons.1 h).1).trans
    (congrArg Except.ok (Header.ofLowBits_toWord hd))

theorem layout_eq : o.layout m = .ok hd.layout := by
  rw [layout, header_eq h]
  rfl

theorem isMarked_eq : o.isMarked m = .ok hd.marked := by
  rw [isMarked, header_eq h]
  rfl

theorem slotCount_eq : o.slotCount m = .ok hd.layout.slotCount := by
  rw [slotCount, layout_eq h]
  rfl

variable (hfit : hd.Fits ws)
include hfit

theorem slot_eq (n : Nat) :
    o.slot n m =
      if n < ws.length + 1 then .ok (o.slotAddress n)
      else .error (.violated (.slotOutOfBounds n (ws.length + 1))) := by
  rw [slot, slotCount_eq h, hfit]
  rfl

theorem read_of_getElem? {n : Nat} {w : Word} (hn : (hd.toWord :: ws)[n]? = some w) :
    o.read n m = .ok w := by
  obtain ⟨hlt, -⟩ := List.getElem?_eq_some_iff.1 hn
  rw [read, slot_eq h hfit, if_pos (by simpa using hlt)]
  exact h n w hn

theorem read_of_le {n : Nat} (hn : ws.length < n) :
    o.read n m = .error (.violated (.slotOutOfBounds n (ws.length + 1))) := by
  rw [read, slot_eq h hfit, if_neg (by omega)]
  rfl

theorem read_succ (n : Nat) : o.read (n + 1) m = wordAt ws n := by
  rw [wordAt]
  cases hn : ws[n]? with
  | some w => exact read_of_getElem? h hfit hn
  | none => exact read_of_le h hfit (Nat.lt_succ_of_le (List.getElem?_eq_none_iff.1 hn))

theorem write_of_getElem {n : Nat} (hn : n < ws.length) (w : Word) :
    ∃ m', o.write (n + 1) w m = .ok m' ∧ m'.Holds o.address (hd.toWord :: ws.set n w) ∧
      m.ChangedWithin ⟨o.address, ws.length + 1⟩ m' := by
  obtain ⟨m', hm, hold, hc⟩ := h.write (Nat.succ_lt_succ hn) w
  refine ⟨m', ?_, hold, hc⟩
  rw [write, slot_eq h hfit, if_pos (Nat.succ_lt_succ hn)]
  exact hm

/-- The words that the header counts as fields. -/
theorem arguments_eq : o.arguments m = .ok (ws.take hd.nfields) := by
  have hn : hd.nfields ≤ ws.length := by
    have hlt := Layout.nfields_lt_slotCount hd
    rw [hfit] at hlt
    omega
  have hws := (Memory.holds_cons.1 h).2
  rw [← List.take_append_drop hd.nfields ws] at hws
  have hr := Memory.readMany_eq_ok_iff_holds.2 (Memory.holds_append.1 hws).1
  rw [List.length_take, Nat.min_eq_left hn] at hr
  simpa only [arguments, header_eq h, slotAddress, Nat.mul_one, bind, Except.bind] using hr

end Reading

section Writing

variable {a : Arena} {f : Contents} {o : HeapObject} {hd : Header} {ws : List Word}
  (h : a.Owns f) (ho : f o.address = some (hd.toWord :: ws))
include h ho

theorem mark_eq_ok :
    ∃ m, o.mark a.memory = .ok m ∧
      { a with memory := m }.Owns (f.put o.address (hd.mark.toWord :: ws)) := by
  obtain ⟨m, hm, hown⟩ := h.writeStart ho hd.mark.toWord
  refine ⟨m, ?_, hown⟩
  rw [mark, header_eq (h.holds ho)]
  exact hm

theorem unmark_eq_ok :
    ∃ m, o.unmark a.memory = .ok m ∧
      { a with memory := m }.Owns (f.put o.address (hd.unmark.toWord :: ws)) := by
  obtain ⟨m, hm, hown⟩ := h.writeStart ho hd.unmark.toWord
  refine ⟨m, ?_, hown⟩
  rw [unmark, header_eq (h.holds ho)]
  exact hm

variable (hfit : hd.Fits ws)
include hfit

theorem write_eq_ok {n : Nat} (hn : n < ws.length) (w : Word) :
    ∃ m, o.write (n + 1) w a.memory = .ok m ∧
      { a with memory := m }.Owns (f.put o.address (hd.toWord :: ws.set n w)) := by
  obtain ⟨m, hm, hold, hc⟩ := write_of_getElem (h.holds ho) hfit hn w
  exact ⟨m, hm, h.changedWithin ho (by simp) hold hc⟩

theorem write_of_le {n : Nat} (hn : ws.length < n) (w : Word) :
    o.write n w a.memory = .error (.violated (.slotOutOfBounds n (ws.length + 1))) := by
  rw [write, slot_eq (h.holds ho) hfit, if_neg (by omega)]
  rfl

end Writing

/-! ## Slots under other numbers -/

theorem argument_eq_read (o : HeapObject) {n : Nat} (hn : n + 1 < wordLimit) :
    o.argument n = o.read (n + 1) := by
  funext m
  rw [argument, Count.add_eq_ok_iff.2 ⟨hn, rfl⟩]
  rfl

theorem argument_of_le (o : HeapObject) {n : Nat} (hn : wordLimit ≤ n + 1) (m : Memory) :
    o.argument n m = .error (.violated .sumOverflow) := by
  rw [argument, Count.add, if_neg (by omega)]
  rfl

theorem setArgument_eq_write (o : HeapObject) {n : Nat} (hn : n + 1 < wordLimit) (w : Word) :
    o.setArgument n w = o.write (n + 1) w := by
  funext m
  rw [setArgument, Count.add_eq_ok_iff.2 ⟨hn, rfl⟩]
  rfl

theorem setArgument_of_le (o : HeapObject) {n : Nat} (hn : wordLimit ≤ n + 1) (w : Word)
    (m : Memory) : o.setArgument n w m = .error (.violated .sumOverflow) := by
  rw [setArgument, Count.add, if_neg (by omega)]
  rfl

end HeapObject

namespace Closure

theorem captureSlot_of_lt {n : Nat} (hn : n + 3 < wordLimit) : captureSlot n = .ok (n + 3) := by
  refine Count.add_eq_ok_iff.2 ⟨?_, ?_⟩ <;> simp only [closureExtraSlots] <;> omega

theorem capture_eq_read (c : Closure) {n : Nat} (hn : n + 3 < wordLimit) :
    c.capture n = c.object.read (n + 3) := by
  funext m
  rw [capture, captureSlot_of_lt hn]
  rfl

theorem capture_of_le (c : Closure) {n : Nat} (hn : wordLimit ≤ n + 3) (m : Memory) :
    c.capture n m = .error (.violated .sumOverflow) := by
  rw [capture, captureSlot, Count.add, if_neg (by simp only [closureExtraSlots]; omega)]
  rfl

theorem setCapture_eq_write (c : Closure) {n : Nat} (hn : n + 3 < wordLimit) (w : Word) :
    c.setCapture n w = c.object.write (n + 3) w := by
  funext m
  rw [setCapture, captureSlot_of_lt hn]
  rfl

theorem setCapture_of_le (c : Closure) {n : Nat} (hn : wordLimit ≤ n + 3) (w : Word)
    (m : Memory) : c.setCapture n w m = .error (.violated .sumOverflow) := by
  rw [setCapture, captureSlot, Count.add, if_neg (by simp only [closureExtraSlots]; omega)]
  rfl

end Closure

end TaggedHeap
