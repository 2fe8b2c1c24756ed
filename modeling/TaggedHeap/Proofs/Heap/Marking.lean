import TaggedHeap.Proofs.Heap.Footprint
import TaggedHeap.Proofs.Object.Bytes
import TaggedHeap.Proofs.Word.HeaderBits

/-!
# Marking

A collector that marks calls objects one by one, in any order and as often as it likes. Each call
reads the header of its object and writes it back with or without the mark. What is left of a
sequence of calls is the last one on each object; everything else that an object is asked for does
not look at the mark, and no object looks at the header of another one.
-/

namespace TaggedHeap

namespace Header

/-- The header with the mark that is asked for, or with its own if none is. -/
def withMark (h : Header) (on : Option Bool) : Header := { h with marked := on.getD h.marked }

theorem mark_withMark (h : Header) (on : Option Bool) : (h.withMark on).mark = h.mark := rfl

theorem layout_withMark (h : Header) (on : Option Bool) : (h.withMark on).layout = h.layout :=
  layout_congr rfl rfl

theorem withMark_self (h : Header) : h.withMark (some h.marked) = h := rfl

theorem withMark_withMark (h : Header) (first second : Option Bool) :
    (h.withMark first).withMark second = h.withMark (second.or first) := by
  cases second <;> rfl

/-- Headers that the mark makes equal have the same bits but the one of the mark. -/
theorem testBit_toWord_of_mark_eq {h h' : Header} (hm : h'.mark = h.mark) {i : Nat} (hi : i ≠ 3) :
    h'.toWord.toNat.testBit i = h.toWord.toNat.testBit i := by
  have hmask : markMask.testBit i = false := Nat.testBit_two_pow_of_ne (Ne.symm hi)
  have hword : h'.toWord.toNat ||| markMask = h.toWord.toNat ||| markMask := by
    rw [← toNat_toWord_mark, ← toNat_toWord_mark, hm]
  have hbit := congrArg (Nat.testBit · i) hword
  simp only [Nat.testBit_or, hmask, Bool.or_false] at hbit
  exact hbit

end Header

namespace HeapObject

/-- An object has the header if and only if its word stands in slot zero. -/
theorem header_eq_ok_iff {o : HeapObject} {m : Memory} {hd : Header} :
    o.header m = .ok hd ↔ m.read o.address = .ok hd.toWord := by
  constructor
  · intro h
    rw [header, bind_eq_ok_iff] at h
    obtain ⟨w, hw, h⟩ := h
    split at h
    case h_2 => cases h
    case h_1 hd' hword =>
      obtain rfl := Except.ok.inj h
      rw [hw, Header.ofWord?_eq_some_iff.1 hword]
  · intro h
    exact header_of_read h (Header.ofWord?_toWord hd)

/-- What an object is asked for answers the same in both memories, all but its mark. -/
structure Alike (o : HeapObject) (m m' : Memory) : Prop where
  uid_eq : Header.uid <$> o.header m' = Header.uid <$> o.header m
  nfields_eq : Header.nfields <$> o.header m' = Header.nfields <$> o.header m
  layout_eq : o.layout m' = o.layout m
  slotCount_eq : o.slotCount m' = o.slotCount m
  references_eq : (fun l => (l.referencesStart, l.referencesEnd)) <$> o.layout m' =
    (fun l => (l.referencesStart, l.referencesEnd)) <$> o.layout m
  read_eq : ∀ n, 1 ≤ n → o.read n m' = o.read n m
  closure_eq : ∀ c, Closure.ofObject o m = .ok c → Closure.ofObject o m' = .ok c ∧
    c.code m' = c.code m ∧ c.descriptor m' = c.descriptor m ∧
    c.captureCount m' = c.captureCount m ∧ ∀ n, c.capture n m' = c.capture n m
  cstring_eq : ∀ s, CString.ofObject o m = .ok s → CString.ofObject o m' = .ok s ∧
    s.bytes m' = s.bytes m

section Alike

variable {o : HeapObject} {m m' : Memory} {hd : Header} {on : Option Bool}
  (hm : o.header m = .ok hd) (hm' : o.header m' = .ok (hd.withMark on))
include hm hm'

theorem layout_eq_of_withMark : o.layout m' = o.layout m := by
  rw [layout, layout, hm, hm']
  exact congrArg Except.ok (hd.layout_withMark on)

theorem slotCount_eq_of_withMark : o.slotCount m' = o.slotCount m := by
  rw [slotCount, slotCount, layout_eq_of_withMark hm hm']

variable (hslots : ∀ n, 1 ≤ n → n < hd.layout.slotCount →
  m'.read (o.slotAddress n) = m.read (o.slotAddress n))
include hslots

theorem read_eq_of_withMark {n : Nat} (hn : 1 ≤ n) : o.read n m' = o.read n m := by
  have hslot : o.slot n m' = o.slot n m := by
    rw [slot, slot, slotCount_eq_of_withMark hm hm']
  rw [read, read, hslot]
  cases hx : o.slot n m with
  | error e => rfl
  | ok x =>
    obtain ⟨count, hcount, hlt, rfl⟩ := slot_eq_ok hx
    obtain rfl := Except.ok.inj (hcount.symm.trans (slotCount_of_header hm))
    exact hslots n hn hlt

/-- A closure is read behind its header. -/
theorem closure_eq_of_withMark {c : Closure} (hc : Closure.ofObject o m = .ok c) :
    Closure.ofObject o m' = .ok c ∧ c.code m' = c.code m ∧ c.descriptor m' = c.descriptor m ∧
      c.captureCount m' = c.captureCount m ∧ ∀ n, c.capture n m' = c.capture n m := by
  have hread := fun {n} => read_eq_of_withMark hm hm' hslots (n := n)
  simp only [Closure.ofObject, hm, bind, Except.bind] at hc
  split at hc
  case isFalse => cases hc
  case isTrue hkind =>
    obtain rfl := Except.ok.inj hc
    have hkind' : (hd.withMark on).isClosure = true := hkind
    refine ⟨?_, hread (by decide), hread (by decide), ?_, fun n => ?_⟩
    · simp only [Closure.ofObject, hm', bind, Except.bind, hkind', if_true]
      rfl
    · rw [Closure.captureCount, Closure.captureCount, hm, hm']
      rfl
    · rw [Closure.capture, Closure.capture]
      cases hslot : Closure.captureSlot n with
      | error e => rfl
      | ok k =>
        obtain ⟨-, rfl⟩ := Count.add_eq_ok_iff.1 hslot
        apply hread
        simp only [closureExtraSlots]
        omega

/-- A string whose slots hold a zero byte is read behind its header. -/
theorem cstring_eq_of_withMark {s : CString} (hsizes : m'.sizes = m.sizes)
    (hz : hd.isCString = true → ∃ i, i < hd.nfields ∧
      ∃ w, m.read (o.slotAddress (i + 1)) = .ok w ∧ 0 ∈ w.bytes)
    (hs : CString.ofObject o m = .ok s) :
    CString.ofObject o m' = .ok s ∧ s.bytes m' = s.bytes m := by
  have hlt := Layout.nfields_lt_slotCount hd
  simp only [CString.ofObject, hm, bind, Except.bind] at hs
  split at hs
  case isFalse => cases hs
  case isTrue hkind =>
    obtain rfl := Except.ok.inj hs
    have hkind' : (hd.withMark on).isCString = true := hkind
    constructor
    · simp only [CString.ofObject, hm', bind, Except.bind, hkind', if_true]
      rfl
    · apply CString.bytes_congr hsizes _ (hz hkind)
      intro i hi
      exact hslots (i + 1) (Nat.succ_pos i) (by omega)

theorem alike_of_withMark (hsizes : m'.sizes = m.sizes)
    (hz : hd.isCString = true → ∃ i, i < hd.nfields ∧
      ∃ w, m.read (o.slotAddress (i + 1)) = .ok w ∧ 0 ∈ w.bytes) : o.Alike m m' where
  uid_eq := by rw [hm, hm']; rfl
  nfields_eq := by rw [hm, hm']; rfl
  layout_eq := layout_eq_of_withMark hm hm'
  slotCount_eq := slotCount_eq_of_withMark hm hm'
  references_eq := by rw [layout_eq_of_withMark hm hm']
  read_eq _ := read_eq_of_withMark hm hm' hslots
  closure_eq _ := closure_eq_of_withMark hm hm' hslots
  cstring_eq _ := cstring_eq_of_withMark hm hm' hslots hsizes hz

end Alike

end HeapObject

/-- A call that marks an object or takes its mark away. -/
structure MarkCall where
  object : HeapObject
  on : Bool
deriving DecidableEq, Repr

namespace MarkCall

def apply (c : MarkCall) (m : Memory) : Except Fault Memory :=
  if c.on then c.object.mark m else c.object.unmark m

def applyAll : List MarkCall → Memory → Except Fault Memory
  | [], m => .ok m
  | c :: cs, m => do applyAll cs (← c.apply m)

/-- What the last of the calls on an object asks for. -/
def last? (o : HeapObject) : List MarkCall → Option Bool
  | [] => none
  | c :: cs => (last? o cs).or (if c.object = o then some c.on else none)

theorem last?_append (o : HeapObject) (cs ds : List MarkCall) :
    last? o (cs ++ ds) = (last? o ds).or (last? o cs) := by
  induction cs with
  | nil => rw [List.nil_append, last?, Option.or_none]
  | cons c cs ih => rw [List.cons_append, last?, last?, ih, Option.or_assoc]

theorem last?_swap {c d : MarkCall} (h : c.object ≠ d.object) (o : HeapObject)
    (ds : List MarkCall) : last? o (c :: d :: ds) = last? o (d :: c :: ds) := by
  simp only [last?, Option.or_assoc]
  by_cases hc : c.object = o
  · have hd : d.object ≠ o := fun hd => h (hc.trans hd.symm)
    rw [if_pos hc, if_neg hd, Option.none_or, Option.or_none]
  · rw [if_neg hc, Option.none_or, Option.or_none]

theorem last?_unmarkAll (o : HeapObject) (os : List HeapObject) :
    last? o (os.map (MarkCall.mk · false)) = if o ∈ os then some false else none := by
  induction os with
  | nil => rfl
  | cons p os ih =>
    rw [List.map_cons, last?, ih]
    by_cases ho : o ∈ os
    · rw [if_pos ho, if_pos (List.mem_cons_of_mem p ho), Option.some_or]
    · simp only [ho, if_false, Option.none_or, List.mem_cons, or_false, eq_comm]

theorem apply_eq (c : MarkCall) {m : Memory} {hd : Header} (h : c.object.header m = .ok hd) :
    c.apply m = m.write c.object.address (hd.withMark (some c.on)).toWord := by
  rw [apply]
  cases c.on with
  | false =>
    rw [if_neg Bool.false_ne_true, HeapObject.unmark, h]
    rfl
  | true =>
    rw [if_pos rfl, HeapObject.mark, h]
    rfl

end MarkCall

namespace HeapObject

/-- Objects with a header each, no two of which share a slot. The strings among them have a zero
byte in their slots. -/
structure Apart (os : List HeapObject) (m : Memory) : Prop where
  header : ∀ o ∈ os, ∃ hd, o.header m = .ok hd
  disjoint : ∀ o ∈ os, ∀ p ∈ os, o ≠ p → ∀ hd hd', o.header m = .ok hd → p.header m = .ok hd' →
    Span.Disjoint ⟨o.address, hd.layout.slotCount⟩ ⟨p.address, hd'.layout.slotCount⟩
  ended : ∀ o ∈ os, ∀ hd, o.header m = .ok hd → hd.isCString = true → ∃ i, i < hd.nfields ∧
    ∃ w, m.read (o.slotAddress (i + 1)) = .ok w ∧ 0 ∈ w.bytes

/-- The second memory is the first one with the given marks in the headers of the objects. -/
structure Marks (os : List HeapObject) (on : HeapObject → Option Bool) (m m' : Memory) : Prop where
  sizes_eq : m'.sizes = m.sizes
  read_eq : ∀ a, (∀ o ∈ os, a ≠ o.address) → m'.read a = m.read a
  header_eq : ∀ o ∈ os, ∀ hd, o.header m = .ok hd → o.header m' = .ok (hd.withMark (on o))

variable {os : List HeapObject} {m m' : Memory} {on : HeapObject → Option Bool}

theorem marks_refl (os : List HeapObject) (m : Memory) : Marks os (fun _ => none) m m :=
  ⟨rfl, fun _ _ => rfl, fun _ _ _ h => h⟩

/-- No other slot of an object holds the header of any object. -/
theorem Apart.slotAddress_ne (h : Apart os m) {o p : HeapObject} (ho : o ∈ os) (hp : p ∈ os)
    {hd : Header} (hhead : o.header m = .ok hd) {n : Nat} (hn : 1 ≤ n)
    (hlt : n < hd.layout.slotCount) : o.slotAddress n ≠ p.address := by
  intro he
  by_cases hop : o = p
  · subst hop
    simp only [slotAddress, wordSize] at he
    omega
  · obtain ⟨hd', hhead'⟩ := h.header p hp
    have hpos := Layout.nfields_lt_slotCount hd'
    have hcovers : Span.Covers ⟨o.address, hd.layout.slotCount⟩ p.address := by
      rw [← he]
      constructor <;> simp only [Span.stop, slotAddress, wordSize] <;> omega
    apply (h.disjoint o ho p hp hop hd hd' hhead hhead').not_covers hcovers
    constructor <;> simp only [Span.stop, wordSize] <;> omega

theorem Marks.alike (hmarks : Marks os on m m') (h : Apart os m) {o : HeapObject} (ho : o ∈ os) :
    o.Alike m m' := by
  obtain ⟨hd, hhead⟩ := h.header o ho
  apply alike_of_withMark hhead (hmarks.header_eq o ho hd hhead) _ hmarks.sizes_eq
    (h.ended o ho hd hhead)
  intro n hn hlt
  apply hmarks.read_eq
  intro p hp
  exact h.slotAddress_ne ho hp hhead hn hlt

/-- Marks leave no choice. -/
theorem Marks.unique {k : Memory} (h : Apart os m) (hm : Marks os on m m') (hk : Marks os on m k) :
    m' = k := by
  apply Memory.eq_of_read (hm.sizes_eq.trans hk.sizes_eq.symm)
  intro a
  by_cases ha : ∃ o ∈ os, a = o.address
  · obtain ⟨o, ho, rfl⟩ := ha
    obtain ⟨hd, hhead⟩ := h.header o ho
    rw [header_eq_ok_iff.1 (hm.header_eq o ho hd hhead),
      header_eq_ok_iff.1 (hk.header_eq o ho hd hhead)]
  · have hout : ∀ o ∈ os, a ≠ o.address := fun o ho he => ha ⟨o, ho, he⟩
    rw [hm.read_eq a hout, hk.read_eq a hout]

/-! ## Calls in turn -/

/-- A call succeeds and replaces what was asked of its object before. -/
theorem Marks.apply (hmarks : Marks os on m m') (h : Apart os m) {c : MarkCall}
    (hc : c.object ∈ os) :
    ∃ k, c.apply m' = .ok k ∧
      Marks os (fun o => (if c.object = o then some c.on else none).or (on o)) m k := by
  obtain ⟨hd, hhead⟩ := h.header _ hc
  have hhead' := hmarks.header_eq _ hc hd hhead
  obtain ⟨k, hk⟩ := Memory.exists_write (header_eq_ok_iff.1 hhead')
    ((hd.withMark (on c.object)).withMark (some c.on)).toWord
  refine ⟨k, (c.apply_eq hhead').trans hk, ?_⟩
  have hread := Memory.read_write hk
  constructor
  case sizes_eq => rw [Memory.sizes_write hk, hmarks.sizes_eq]
  case read_eq =>
    intro a ha
    rw [hread, if_neg (ha _ hc)]
    exact hmarks.read_eq a ha
  case header_eq =>
    intro o ho hd' hhead''
    rw [header_eq_ok_iff, hread]
    by_cases hco : c.object = o
    · subst hco
      obtain rfl := Except.ok.inj (hhead.symm.trans hhead'')
      rw [if_pos rfl, if_pos rfl, Header.withMark_withMark]
    · have hne : o.address ≠ c.object.address := by
        intro he
        apply hco
        cases o
        exact (congrArg HeapObject.mk he).symm
      rw [if_neg hne, if_neg hco, Option.none_or]
      exact header_eq_ok_iff.1 (hmarks.header_eq o ho hd' hhead'')

theorem Marks.applyAll (h : Apart os m) {cs : List MarkCall} (hcs : ∀ c ∈ cs, c.object ∈ os)
    (hmarks : Marks os on m m') :
    ∃ k, MarkCall.applyAll cs m' = .ok k ∧
      Marks os (fun o => (MarkCall.last? o cs).or (on o)) m k := by
  induction cs generalizing on m' with
  | nil => exact ⟨m', rfl, hmarks⟩
  | cons c cs ih =>
    obtain ⟨k, hk, hmarks'⟩ := hmarks.apply h (hcs c List.mem_cons_self)
    obtain ⟨l, hl, hall⟩ := ih (fun d hd => hcs d (List.mem_cons_of_mem c hd)) hmarks'
    refine ⟨l, ?_, ?_⟩
    · rw [MarkCall.applyAll, hk]
      exact hl
    · simpa only [MarkCall.last?, Option.or_assoc] using hall

/-- Only the last call on each object counts. -/
theorem Apart.applyAll (h : Apart os m) {cs : List MarkCall} (hcs : ∀ c ∈ cs, c.object ∈ os) :
    ∃ k, MarkCall.applyAll cs m = .ok k ∧ Marks os (MarkCall.last? · cs) m k := by
  obtain ⟨k, hk, hmarks⟩ := (marks_refl os m).applyAll h hcs
  simp only [Option.or_none] at hmarks
  exact ⟨k, hk, hmarks⟩

theorem Apart.applyAll_eq (h : Apart os m) {cs : List MarkCall} (hcs : ∀ c ∈ cs, c.object ∈ os)
    (hmarks : Marks os (MarkCall.last? · cs) m m') : MarkCall.applyAll cs m = .ok m' := by
  obtain ⟨k, hk, hmarks'⟩ := h.applyAll hcs
  rw [hk, hmarks'.unique h hmarks]

theorem Apart.applyAll_swap (h : Apart os m) {cs ds : List MarkCall} {c d : MarkCall}
    (hcs : ∀ e ∈ cs ++ d :: c :: ds, e.object ∈ os) (hne : c.object ≠ d.object) :
    MarkCall.applyAll (cs ++ c :: d :: ds) m = MarkCall.applyAll (cs ++ d :: c :: ds) m := by
  obtain ⟨k, hk, hmarks⟩ := h.applyAll hcs
  rw [hk]
  apply h.applyAll_eq
  · intro e he
    apply hcs e
    rw [List.mem_append] at he ⊢
    exact he.imp_right (List.Perm.swap d c ds).mem_iff.1
  · simp only [MarkCall.last?_append, MarkCall.last?_swap hne] at hmarks ⊢
    exact hmarks

theorem Apart.applyAll_unmarkAll (h : Apart os m) {cs : List MarkCall}
    (hcs : ∀ c ∈ cs, c.object ∈ os) (hclear : ∀ o ∈ os, o.isMarked m = .ok false) :
    MarkCall.applyAll (cs ++ os.map (MarkCall.mk · false)) m = .ok m := by
  apply h.applyAll_eq
  · intro c hc
    obtain hc | hc := List.mem_append.1 hc
    · exact hcs c hc
    · obtain ⟨o, ho, rfl⟩ := List.mem_map.1 hc
      exact ho
  · refine ⟨rfl, fun _ _ => rfl, fun o ho hd hhead => ?_⟩
    have hmarked : hd.marked = false := by
      have hc := hclear o ho
      rw [isMarked, hhead] at hc
      exact Except.ok.inj hc
    rw [MarkCall.last?_append, MarkCall.last?_unmarkAll, if_pos ho, Option.some_or, ← hmarked,
      Header.withMark_self]
    exact hhead

/-- What is seen of a sequence of calls: a bit of the header words, as the last call on each object
wants it. -/
structure Passed (os : List HeapObject) (cs : List MarkCall) (m m' : Memory) : Prop where
  sizes_eq : m'.sizes = m.sizes
  read_eq : ∀ a, (∀ o ∈ os, a ≠ o.address) → m'.read a = m.read a
  testBit_eq : ∀ o ∈ os, ∃ w w', m.read o.address = .ok w ∧ m'.read o.address = .ok w' ∧
    ∀ i, i ≠ 3 → w'.toNat.testBit i = w.toNat.testBit i
  isMarked_eq : ∀ o ∈ os, o.isMarked m' =
    match MarkCall.last? o cs with
    | some on => .ok on
    | none => o.isMarked m
  alike : ∀ o ∈ os, o.Alike m m'

theorem Marks.passed {cs : List MarkCall} (hmarks : Marks os (MarkCall.last? · cs) m m')
    (h : Apart os m) : Passed os cs m m' where
  sizes_eq := hmarks.sizes_eq
  read_eq := hmarks.read_eq
  testBit_eq := by
    intro o ho
    obtain ⟨hd, hhead⟩ := h.header o ho
    have hhead' := hmarks.header_eq o ho hd hhead
    exact ⟨_, _, header_eq_ok_iff.1 hhead, header_eq_ok_iff.1 hhead',
      fun i => Header.testBit_toWord_of_mark_eq (hd.mark_withMark _)⟩
  isMarked_eq := by
    intro o ho
    obtain ⟨hd, hhead⟩ := h.header o ho
    rw [isMarked, isMarked, hmarks.header_eq o ho hd hhead, hhead]
    cases MarkCall.last? o cs <;> rfl
  alike _ := hmarks.alike h

/-- Calls that mark objects and take marks away succeed in any sequence and leave memory as it was
but for the mark bits, which are as the last call on each object wants them. All else that objects
are asked for stays. Calls on different objects commute wherever they stand, and if no object was
marked, taking all marks away at the end restores memory. -/
theorem marking_invisible (h : Apart os m) {cs : List MarkCall} (hcs : ∀ c ∈ cs, c.object ∈ os) :
    (∃ m', MarkCall.applyAll cs m = .ok m' ∧ Passed os cs m m') ∧
    (∀ c d ds, (∀ e ∈ c :: d :: ds, e.object ∈ os) → c.object ≠ d.object →
      MarkCall.applyAll (cs ++ c :: d :: ds) m = MarkCall.applyAll (cs ++ d :: c :: ds) m) ∧
    ((∀ o ∈ os, o.isMarked m = .ok false) →
      MarkCall.applyAll (cs ++ os.map (MarkCall.mk · false)) m = .ok m) := by
  refine ⟨?_, ?_, h.applyAll_unmarkAll hcs⟩
  · obtain ⟨k, hk, hmarks⟩ := h.applyAll hcs
    exact ⟨k, hk, hmarks.passed h⟩
  · intro c d ds hds hne
    apply h.applyAll_swap _ hne
    intro e he
    obtain he | he := List.mem_append.1 he
    · exact hcs e he
    · exact hds e ((List.Perm.swap c d ds).mem_iff.1 he)

/-- A string of two bytes and a closure with one capture. -/
def assorted : Memory where
  chunks := [#[.ofNat 0x01000016, .ofNat 0x6968,
    .ofNat 0x01000006, .ofNat 64, .ofNat 2, .unboxed 7]]

theorem read_assorted {i : Nat} {w : Word} (h : assorted.get? ⟨0, i⟩ = some w) :
    assorted.read (Memory.origin + wordSize * i) = .ok w := by
  have hread := Memory.read_address h
  rw [Memory.address, List.take_zero, Memory.wordsIn, Nat.zero_add] at hread
  exact hread

/-- Both are marked, the string not for long. -/
theorem marking_invisible_assorted :
    let string : HeapObject := ⟨Memory.origin⟩
    let closure : HeapObject := ⟨Memory.origin + wordSize * 2⟩
    let os := [string, closure]
    let cs : List MarkCall := [⟨string, true⟩, ⟨closure, true⟩, ⟨string, false⟩]
    Apart os assorted ∧ (∀ c ∈ cs, c.object ∈ os) ∧
    (∃ m', MarkCall.applyAll cs assorted = .ok m' ∧
      string.isMarked m' = .ok false ∧ closure.isMarked m' = .ok true) ∧
    MarkCall.applyAll (cs ++ os.map (MarkCall.mk · false)) assorted = .ok assorted := by
  intro string closure os cs
  have hstring : string.header assorted = .ok ⟨cstringUid, 1, false, by decide, by decide⟩ :=
    header_of_read (read_assorted (i := 0) rfl) (by decide +kernel)
  have hclosure : closure.header assorted = .ok ⟨closureUid, 1, false, by decide, by decide⟩ :=
    header_of_read (read_assorted (i := 2) rfl) (by decide +kernel)
  have hos : ∀ {o}, o ∈ os → o = string ∨ o = closure := by simp [os]
  have happart : Apart os assorted := by
    constructor
    case header =>
      intro o ho
      obtain rfl | rfl := hos ho
      · exact ⟨_, hstring⟩
      · exact ⟨_, hclosure⟩
    case disjoint =>
      intro o ho p hp hne hd hd' hhead hhead'
      obtain rfl | rfl := hos ho <;> obtain rfl | rfl := hos hp
      · exact absurd rfl hne
      · obtain rfl := Except.ok.inj (hstring.symm.trans hhead)
        obtain rfl := Except.ok.inj (hclosure.symm.trans hhead')
        exact .inl (by decide)
      · obtain rfl := Except.ok.inj (hclosure.symm.trans hhead)
        obtain rfl := Except.ok.inj (hstring.symm.trans hhead')
        exact .inr (by decide)
      · exact absurd rfl hne
    case ended =>
      intro o ho hd hhead hkind
      obtain rfl | rfl := hos ho
      · obtain rfl := Except.ok.inj (hstring.symm.trans hhead)
        exact ⟨0, Nat.one_pos, .ofNat 0x6968, read_assorted (i := 1) rfl, by decide +kernel⟩
      · obtain rfl := Except.ok.inj (hclosure.symm.trans hhead)
        cases hkind
  have hcs : ∀ c ∈ cs, c.object ∈ os := by decide
  obtain ⟨⟨m', hm', hpassed⟩, -, hrestored⟩ := marking_invisible happart hcs
  refine ⟨happart, hcs, ⟨m', hm', ?_, ?_⟩, hrestored ?_⟩
  · exact hpassed.isMarked_eq string (by simp [os])
  · exact hpassed.isMarked_eq closure (by simp [os])
  · intro o ho
    obtain rfl | rfl := hos ho
    · rw [isMarked, hstring]
      rfl
    · rw [isMarked, hclosure]
      rfl

end HeapObject

end TaggedHeap
