import TaggedHeap.Proofs.Heap.Footprint
import TaggedHeap.Proofs.Word.Tagging

/-!
# Accesses

The words of an object are numbered in three ways: as slots, as arguments, which begin one slot
further on, and as captures, which begin three slots further on. Every access adds the offset of its
numbers, reads the header anew and compares with the slot count that it gives. So the sum alone
decides whether the access succeeds, and if it does it concerns the one word of that slot.
-/

namespace TaggedHeap

namespace Memory

/-- The second memory has the word at the address and is the first one elsewhere. -/
structure Updated (m : Memory) (a : Nat) (w : Word) (n : Memory) : Prop where
  sizes_eq : n.sizes = m.sizes
  read_eq : ∀ b, n.read b = if b = a then .ok w else m.read b

theorem updated_of_write {m n : Memory} {a : Nat} {w : Word} (h : m.write a w = .ok n) :
    m.Updated a w n :=
  ⟨sizes_write h, read_write h⟩

end Memory

namespace HeapObject

open Heap

/-- A header stands at the address, and all the slots that it gives are words of one chunk. -/
structure Whole (o : HeapObject) (hd : Header) (m : Memory) : Prop where
  header : ∃ w, m.read o.address = .ok w ∧ Header.ofWord? w = some hd
  inChunk : m.InChunk ⟨o.address, hd.layout.slotCount⟩

/-- Why there is no slot `n + offset` among so many. -/
def beyond (count offset n : Nat) : Violation :=
  if n + offset < wordLimit then .slotOutOfBounds (n + offset) count else .sumOverflow

/-- The address of the slot that lies `offset` numbers further on. -/
def addressBehind (o : HeapObject) (offset n : Nat) (m : Memory) : Except Fault Nat := do
  o.slot (← Count.add n offset) m

/-- Getting and setting go to the slot that lies `offset` numbers further on. -/
structure Accessor (o : HeapObject) (offset : Nat) (get : Nat → Memory → Except Fault Word)
    (set : Nat → Word → Memory → Except Fault Memory) : Prop where
  get_eq : ∀ n m, n < wordLimit → get n m = o.addressBehind offset n m >>= m.read
  set_eq : ∀ n w m, n < wordLimit → set n w m = o.addressBehind offset n m >>= (m.write · w)

/-- The accesses by the numbers `inside` get and set the words of their slots, and those by any
other number stop and leave the heap as it was. -/
structure Guarded (h : Heap) (o : HeapObject) (count offset : Nat) (inside : Nat → Prop)
    (get : Nat → Memory → Except Fault Word)
    (set : Nat → Word → Memory → Except Fault Memory) : Prop where
  get_inside : ∀ n, inside n → ∃ u, h.memory.read (o.slotAddress (n + offset)) = .ok u ∧
    (reading (get n)).run h = .ok u h
  set_inside : ∀ n w, inside n → ∃ m, (writing (set n w)).run h = .ok () (h.withMemory m) ∧
    h.memory.Updated (o.slotAddress (n + offset)) w m
  get_outside : ∀ n, n < wordLimit → ¬ inside n →
    (reading (get n)).run h = .error (.violated (beyond count offset n)) h
  set_outside : ∀ n w, n < wordLimit → ¬ inside n →
    (writing (set n w)).run h = .error (.violated (beyond count offset n)) h

/-! ## Numbers of slots -/

theorem accessor_slots (o : HeapObject) : Accessor o 0 o.read o.write where
  get_eq n m hn := by rw [addressBehind, Count.add_eq_ok_iff.2 ⟨hn, rfl⟩]; rfl
  set_eq n w m hn := by rw [addressBehind, Count.add_eq_ok_iff.2 ⟨hn, rfl⟩]; rfl

theorem accessor_arguments (o : HeapObject) : Accessor o 1 o.argument o.setArgument where
  get_eq n m _ := (bind_assoc (Count.add n 1) (o.slot · m) m.read).symm
  set_eq n w m _ := (bind_assoc (Count.add n 1) (o.slot · m) (m.write · w)).symm

theorem captureSlot_eq (n : Nat) : Closure.captureSlot n = Count.add n 3 := by
  rw [Closure.captureSlot, Count.add, Count.add, closureExtraSlots, Nat.add_comm n 3]

theorem accessor_captures (c : Closure) : Accessor c.object 3 c.capture c.setCapture where
  get_eq n m _ := by
    rw [Closure.capture, captureSlot_eq]
    exact (bind_assoc (Count.add n 3) (c.object.slot · m) m.read).symm
  set_eq n w m _ := by
    rw [Closure.setCapture, captureSlot_eq]
    exact (bind_assoc (Count.add n 3) (c.object.slot · m) (m.write · w)).symm

/-! ## Objects that are whole -/

section Whole

variable {o : HeapObject} {hd : Header} {m : Memory}

theorem Whole.header_eq (hw : o.Whole hd m) : o.header m = .ok hd := by
  obtain ⟨w, hread, hhead⟩ := hw.header
  exact header_of_read hread hhead

theorem Whole.exists_slots (hw : o.Whole hd m) :
    ∃ ws, m.Holds o.address (hd.toWord :: ws) ∧ hd.Fits ws := by
  obtain ⟨w, hread, hhead⟩ := hw.header
  obtain ⟨us, hlen, hholds⟩ := hw.inChunk.exists_holds
  have hlen : us.length = hd.layout.slotCount := hlen
  have hpos : 0 < us.length := Nat.zero_lt_of_lt (hlen ▸ Layout.nfields_lt_slotCount hd)
  obtain ⟨v, ws, rfl⟩ := List.exists_cons_of_length_pos hpos
  have hv : v = hd.toWord := by
    rw [Header.ofWord?_eq_some_iff.1 hhead]
    exact Except.ok.inj ((Memory.holds_cons.1 hholds).1.symm.trans hread)
  exact ⟨ws, hv ▸ hholds, hlen.symm⟩

theorem Whole.run_ofObject {h : Heap} (hw : o.Whole hd h.memory) (hc : hd.isClosure = true) :
    (reading (Closure.ofObject o)).run h = .ok ⟨o⟩ h := by
  apply run_reading_of_ok
  rw [Closure.ofObject, hw.header_eq]
  simp only [bind, Except.bind, hc, if_true]
  rfl

end Whole

section Guarded

variable {h : Heap} {o : HeapObject} {hd : Header} {ws : List Word} {count offset : Nat}
  {get : Nat → Memory → Except Fault Word} {set : Nat → Word → Memory → Except Fault Memory}

theorem length_lt_of_fits (hfit : hd.Fits ws) : ws.length + 1 < wordLimit := by
  have hle := Layout.slotCount_le hd
  rw [hfit] at hle
  exact Nat.lt_of_le_of_lt hle (by decide)

/-- The sum alone decides: it is a slot, or it is out of bounds or overflows. -/
theorem addressBehind_eq {m : Memory} (hm : m.Holds o.address (hd.toWord :: ws))
    (hfit : hd.Fits ws) (offset n : Nat) :
    o.addressBehind offset n m =
      if n + offset < ws.length + 1 then .ok (o.slotAddress (n + offset))
      else .error (.violated (beyond (ws.length + 1) offset n)) := by
  rw [addressBehind, Count.add, beyond]
  by_cases hsum : n + offset < wordLimit
  · rw [if_pos hsum, if_pos hsum]
    exact slot_eq hm hfit (n + offset)
  · have hout : ¬ n + offset < ws.length + 1 := fun hin =>
      hsum (Nat.lt_trans hin (length_lt_of_fits hfit))
    rw [if_neg hsum, if_neg hsum, if_neg hout]
    rfl

theorem Accessor.guarded (ha : Accessor o offset get set) {inside : Nat → Prop}
    (hm : h.memory.Holds o.address (hd.toWord :: ws)) (hfit : hd.Fits ws)
    (hin : ∀ n, inside n ↔ n + offset < ws.length + 1) :
    Guarded h o (ws.length + 1) offset inside get set := by
  have hlt : ∀ n, inside n → n < wordLimit := fun n hn =>
    Nat.lt_of_le_of_lt (Nat.le_add_right n offset)
      (Nat.lt_trans ((hin n).1 hn) (length_lt_of_fits hfit))
  have hword : ∀ {n}, inside n → ∃ u, h.memory.read (o.slotAddress (n + offset)) = .ok u :=
    fun hn => ⟨_, hm _ _ (List.getElem?_eq_getElem ((hin _).1 hn))⟩
  have haddress : ∀ {n}, inside n →
      o.addressBehind offset n h.memory = .ok (o.slotAddress (n + offset)) := fun hn =>
    (addressBehind_eq hm hfit offset _).trans (if_pos ((hin _).1 hn))
  have hstops : ∀ {n}, ¬ inside n → o.addressBehind offset n h.memory =
      .error (.violated (beyond (ws.length + 1) offset n)) := fun hn =>
    (addressBehind_eq hm hfit offset _).trans (if_neg (mt (hin _).2 hn))
  constructor
  case get_inside =>
    intro n hn
    obtain ⟨u, hu⟩ := hword hn
    refine ⟨u, hu, run_reading_of_ok ?_⟩
    rw [ha.get_eq n _ (hlt n hn), haddress hn]
    exact hu
  case set_inside =>
    intro n w hn
    obtain ⟨u, hu⟩ := hword hn
    obtain ⟨m, hwrite⟩ := Memory.exists_write hu w
    refine ⟨m, run_writing_of_ok ?_, Memory.updated_of_write hwrite⟩
    rw [ha.set_eq n w _ (hlt n hn), haddress hn]
    exact hwrite
  case get_outside =>
    intro n hn hout
    apply run_reading_of_error
    rw [ha.get_eq n _ hn, hstops hout]
    rfl
  case set_outside =>
    intro n w hn hout
    apply run_writing_of_error
    rw [ha.set_eq n w _ hn, hstops hout]
    rfl

end Guarded

section Words

variable {h : Heap} {o : HeapObject} {hd : Header} {ws : List Word}
  (hm : h.memory.Holds o.address (hd.toWord :: ws)) (hfit : hd.Fits ws)
include hm hfit

theorem guarded_arguments :
    Guarded h o (ws.length + 1) 1 (fun n => n + 1 < ws.length + 1) o.argument o.setArgument :=
  (accessor_arguments o).guarded hm hfit fun _ => Iff.rfl

/-- The slots behind the code and the descriptor are those of the captures. -/
theorem guarded_captures (hc : hd.isClosure = true) :
    Guarded h o (ws.length + 1) 3 (fun n => n < hd.nfields) (Closure.mk o).capture
      (Closure.mk o).setCapture := by
  have huid : hd.uid = closureUid := beq_iff_eq.1 hc
  have hslots := hd.slotCount_layout
  rw [if_pos huid, hfit] at hslots
  apply (accessor_captures ⟨o⟩).guarded hm hfit
  intro n
  omega

/-- The arguments taken together are the arguments one by one, as many as the header counts. -/
theorem run_arguments :
    ∃ us, (reading o.arguments).run h = .ok us h ∧ us.length = hd.nfields ∧
      ∀ n, n < hd.nfields → ∃ u, us[n]? = some u ∧ (reading (o.argument n)).run h = .ok u h := by
  have hlt : hd.nfields < ws.length + 1 := hfit ▸ Layout.nfields_lt_slotCount hd
  have hlen : (ws.take hd.nfields).length = hd.nfields := by
    rw [List.length_take, Nat.min_eq_left (Nat.le_of_lt_succ hlt)]
  refine ⟨_, run_reading_of_ok (arguments_eq hm hfit), hlen, fun n hn => ?_⟩
  have hget : ws[n]? = some ws[n] := List.getElem?_eq_getElem (by omega)
  have hread : h.memory.read (o.slotAddress (n + 1)) = .ok ws[n] := hm (n + 1) _ hget
  obtain ⟨u, hu, hrun⟩ := (guarded_arguments hm hfit).get_inside n (by omega)
  obtain rfl := Except.ok.inj (hu.symm.trans hread)
  exact ⟨_, (List.getElem?_take_of_lt hn).trans hget, hrun⟩

end Words

/-- An object that is whole is accessed by exactly the numbers of its slots, of its slots behind the
header and, for a closure, of its captures. Its arguments taken together are the words that the
header counts as fields, each the argument of its number, whatever the object is. -/
theorem accesses_guarded {h : Heap} {o : HeapObject} {hd : Header} (hw : o.Whole hd h.memory) :
    let count := hd.layout.slotCount
    (reading o.slotCount).run h = .ok count h ∧
    Guarded h o count 0 (fun n => n < count) o.read o.write ∧
    Guarded h o count 1 (fun n => n + 1 < count) o.argument o.setArgument ∧
    (hd.isClosure = true → ∃ c, (reading (Closure.ofObject o)).run h = .ok c h ∧
      Guarded h o count 3 (fun n => n < hd.nfields) c.capture c.setCapture) ∧
    ∃ ws, (reading o.arguments).run h = .ok ws h ∧ ws.length = hd.nfields ∧
      ∀ n, n < hd.nfields → ∃ u, ws[n]? = some u ∧ (reading (o.argument n)).run h = .ok u h := by
  intro count
  obtain ⟨ws, hm, hfit⟩ := hw.exists_slots
  have hcount : count = ws.length + 1 := hfit
  rw [hcount]
  refine ⟨?_, ?_, guarded_arguments hm hfit, fun hc => ?_, run_arguments hm hfit⟩
  · rw [← hcount]
    exact run_reading_of_ok (slotCount_eq hm)
  · exact (accessor_slots o).guarded hm hfit fun _ => Iff.rfl
  · exact ⟨⟨o⟩, hw.run_ofObject hc, guarded_captures hm hfit hc⟩

/-- A closure with one capture, alone in memory. -/
def closureAlone : Heap where
  arena := {
    memory := { chunks := [#[.ofNat 0x01000006, .ofNat 64, .ofNat 2, .unboxed 7]] } }

/-- Its second capture would be a fifth slot, and the number of its last one that a word can name
overflows. -/
theorem accesses_guarded_alone :
    let o : HeapObject := ⟨Memory.origin⟩
    let hd : Header := ⟨closureUid, 1, false, by decide, by decide⟩
    o.Whole hd closureAlone.memory ∧
    ∃ c, (reading (Closure.ofObject o)).run closureAlone = .ok c closureAlone ∧
      (∃ u, (reading (c.capture 0)).run closureAlone = .ok u closureAlone) ∧
      (reading (c.capture 1)).run closureAlone =
        .error (.violated (.slotOutOfBounds 4 4)) closureAlone ∧
      (writing (c.setCapture (wordLimit - 1) .zero)).run closureAlone =
        .error (.violated .sumOverflow) closureAlone := by
  intro o hd
  have hw : o.Whole hd closureAlone.memory := by
    constructor
    case header =>
      exact ⟨.ofNat 0x01000006, Memory.read_address (p := ⟨0, 0⟩) rfl, by decide +kernel⟩
    case inChunk => exact ⟨0, _, 0, rfl, rfl, by decide⟩
  obtain ⟨-, -, -, hclosure, -⟩ := accesses_guarded hw
  obtain ⟨c, hc, hcaptures⟩ := hclosure rfl
  refine ⟨hw, c, hc, ?_, ?_, ?_⟩
  · obtain ⟨u, -, hu⟩ := hcaptures.get_inside 0 Nat.one_pos
    exact ⟨u, hu⟩
  · exact hcaptures.get_outside 1 (by decide) (Nat.lt_irrefl 1)
  · exact hcaptures.set_outside (wordLimit - 1) .zero (by decide) (by decide)

end HeapObject

end TaggedHeap
