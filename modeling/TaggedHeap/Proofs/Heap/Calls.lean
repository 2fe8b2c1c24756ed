import TaggedHeap.Proofs.Heap.Footprint
import TaggedHeap.Proofs.Heap.Ledger
import TaggedHeap.Proofs.Word.Tagging

/-!
# What a call does to the blocks

Over an arena without a collector, what was made has one block each, at an address of its own, and a
call does one of five things: it leaves the blocks alone, it makes something new with a block of its
own, it changes a word of an object or of a pair, or the mark of a header, or it is refused a write
that the ledger has entered. What is told of the words of blocks is kept by a run if each of these
keeps it.
-/

namespace TaggedHeap

namespace Heap

/-- What a request does to a heap without a collector. -/
theorem allocate_plain {h : Heap} {f : Contents} (hd : h.discipline = .plain)
    (ho : h.arena.Owns f) {r : Request} (he : r.isEmpty = false) :
    (∃ x h', (allocate r).run h = .ok x h' ∧ h'.discipline = .plain ∧ h'.roots = h.roots ∧
      f x = none ∧ x % (wordSize * r.alignment) = 0 ∧
      h'.arena.Owns (f.put x (List.replicate r.wordCount Word.zero))) ∨
    ∃ e h', (allocate r).run h = .error e h' ∧ h'.discipline = .plain ∧ h'.arena = h.arena := by
  rw [run_allocate_plain hd, run_reserve]
  cases hr : h.arena.reserve r with
  | error e => exact .inr ⟨e, _, rfl, hd, rfl⟩
  | ok answer =>
    obtain ⟨x, b⟩ := answer
    obtain ⟨hg, hb, hal⟩ := ho.valid.reserve he hr
    obtain ⟨hnew, hown⟩ := ho.grants hg hb (Request.wordCount_pos he)
    exact .inl ⟨x, _, rfl, hd, rfl, hnew, hal, hown⟩

end Heap

theorem Roots.filterMap_of_mapM_read {r : Roots} {is : List Nat} {ws : List Word}
    (h : is.mapM r.read = .ok ws) : is.filterMap (r[·]?) = ws := by
  induction is generalizing ws with
  | nil =>
    obtain rfl := Except.ok.inj h
    rfl
  | cons i is ih =>
    cases hi : r[i]? with
    | none =>
      rw [Roots.mapM_read_cons_of_error (Roots.read_of_none hi)] at h
      cases h
    | some w =>
      rw [Roots.mapM_read_cons_of_ok (Roots.read_of_some hi)] at h
      cases hrest : is.mapM r.read with
      | error e =>
        rw [hrest] at h
        cases h
      | ok vs =>
        rw [hrest] at h
        obtain rfl := Except.ok.inj h
        rw [List.filterMap_cons, hi, ih hrest]

namespace Made

/-- The address of its block. -/
def start : Made → Nat
  | .constructor _ _ o => o.address
  | .closure _ _ _ c => c.object.address
  | .cstring _ s => s.object.address
  | .pair p => p.address
  | .dword _ w => w.dwordAddress

theorem start_of_object? {m : Made} {o : HeapObject} (h : m.object? = some o) :
    m.start = o.address := by
  cases m <;> simp_all [object?, start]

theorem object?_of_closure? {m : Made} {c : Closure} (h : m.closure? = some c) :
    m.object? = some c.object := by
  cases m <;> simp_all [object?, closure?]

theorem slotCount_of_object? {m : Made} {o : HeapObject} (h : m.object? = some o) :
    m.slotCount = m.contents.length + 1 := by
  cases m <;> simp_all [object?, slotCount]

/-- How many words its block has. -/
def size : Made → Nat
  | .pair _ => 2
  | .dword _ _ => 2
  | m => m.contents.length + 1

theorem size_of_object? {m : Made} {o : HeapObject} (h : m.object? = some o) :
    m.size = m.slotCount := by
  cases m <;> simp_all [object?, slotCount, size]

/-- Its header gives it the slots that its block has. -/
def Regular : Made → Prop
  | .constructor uid _ _ => uid ≠ closureUid
  | _ => True

/-- What begins at an address of its own keeps the addresses different. -/
theorem apart_concat {made : List Made} {m : Made}
    (h : ∀ {j k : Nat} {n n' : Made}, made[j]? = some n → made[k]? = some n' →
      n.start = n'.start → j = k)
    (hm : ∀ {k : Nat} {n : Made}, made[k]? = some n → n.start ≠ m.start) {j k : Nat} {n n' : Made}
    (hj : (made ++ [m])[j]? = some n) (hk : (made ++ [m])[k]? = some n')
    (he : n.start = n'.start) : j = k := by
  rcases getElem?_concat_cases hj with hj' | ⟨rfl, rfl⟩
  · rcases getElem?_concat_cases hk with hk' | ⟨rfl, rfl⟩
    · exact h hj' hk' he
    · exact absurd he (hm hj')
  · rcases getElem?_concat_cases hk with hk' | ⟨rfl, rfl⟩
    · exact absurd he.symm (hm hk')
    · rfl

/-- A string is made from bytes without a zero. -/
def Terminable : Made → Prop
  | .cstring bytes _ => 0 ∉ bytes
  | _ => True

theorem eq_of_pair? {m : Made} {p : Pair} (h : m.pair? = some p) : m = .pair p := by
  cases m <;> simp_all [pair?]

end Made

namespace Writes

theorem latest_eq {written written' : Writes} {k n : Nat}
    (h : written'.lookup (k, n) = written.lookup (k, n)) (w : Word) :
    written'.latest k n w = written.latest k n w := by
  rw [latest, latest, h]

theorem lookup_cons_of_ne (written : Writes) {j k i n : Nat} (h : j ≠ k ∨ i ≠ n) (w : Word) :
    List.lookup (j, i) (((k, n), w) :: written) = List.lookup (j, i) written := by
  have hne : ((j, i) == (k, n)) = false := by
    rw [beq_eq_false_iff_ne]
    intro he
    obtain ⟨rfl, rfl⟩ := Prod.mk.inj he
    simp at h
  rw [List.lookup_cons, hne]

theorem latest_cons_self (written : Writes) (k n : Nat) (w v : Word) :
    latest (((k, n), w) :: written) k n v = w := by
  rw [latest, List.lookup_cons_self]
  rfl

theorem latest_cons_of_ne (written : Writes) {j k i n : Nat} (h : j ≠ k ∨ i ≠ n) (w v : Word) :
    latest (((k, n), w) :: written) j i v = latest written j i v :=
  latest_eq (lookup_cons_of_ne written h w) v

end Writes

namespace Word

/-- How many slots an object has with the word in front. -/
def slotsGiven (w : Word) : Nat := (Header.ofWord? w).elim 0 fun hd => hd.layout.slotCount

theorem slotsGiven_of_ofWord? {w : Word} {hd : Header} (h : Header.ofWord? w = some hd) :
    w.slotsGiven = hd.layout.slotCount := by
  rw [slotsGiven, h]
  rfl

end Word

namespace HeapObject

variable {o : HeapObject} {m m' : Memory}

theorem exists_word_of_header {hd : Header} (h : o.header m = .ok hd) :
    ∃ w, m.read o.address = .ok w ∧ Header.ofWord? w = some hd := by
  rw [header, bind_eq_ok_iff] at h
  obtain ⟨w, hr, h⟩ := h
  split at h
  case h_1 hd' hw => exact ⟨w, hr, Except.ok.inj h ▸ hw⟩
  case h_2 => cases h

/-- A write that passes its check is one to a slot that the word in front gives. -/
theorem gives_of_write {n : Nat} {v : Word} (h : o.write n v m = .ok m') :
    (∃ w, m.read o.address = .ok w ∧ n < w.slotsGiven) ∧
      m.write (o.slotAddress n) v = .ok m' := by
  rw [write, bind_eq_ok_iff] at h
  obtain ⟨x, hx, hw⟩ := h
  obtain ⟨count, hcount, hn, rfl⟩ := slot_eq_ok hx
  refine ⟨?_, hw⟩
  cases hh : o.header m with
  | error e =>
    rw [slotCount, layout, hh] at hcount
    cases hcount
  | ok hd =>
    obtain ⟨w, hr, hof⟩ := exists_word_of_header hh
    obtain rfl := Except.ok.inj ((slotCount_of_header hh).symm.trans hcount)
    exact ⟨w, hr, by rwa [Word.slotsGiven_of_ofWord? hof]⟩

end HeapObject

/-- The words of the block of something that was just made. The header of a constructor with the uid
of closures gives it more slots than its block has. -/
inductive Begins : Made → List Word → Prop where
  | object {m : Made} {o : HeapObject} {hd : Header} : m.object? = some o →
    m.shape? = some (hd.uid, hd.nfields) → m.Terminable → (m.Regular → hd.Fits m.contents) →
    Begins m (hd.toWord :: m.contents)
  | pair (p : Pair) : Begins (.pair p) [.zero, .zero]
  | dword (d : DWord) {x : Nat} : x % dwordSize = 0 → x < wordLimit →
    Begins (.dword d (.taggedDWord x)) [d.lo, d.hi]

theorem Begins.length_eq {m : Made} {ws : List Word} (h : Begins m ws) : ws.length = m.size := by
  cases h with
  | object ho => rw [Made.size_of_object? ho, Made.slotCount_of_object? ho, List.length_cons]
  | pair => rfl
  | dword => rfl

namespace Ledger

open Heap

theorem slotCount_eq (l : Ledger) {k : Nat} {m : Made} (hk : l.made[k]? = some m) :
    l.slotCount k = m.slotCount := by
  rw [slotCount, hk]
  rfl

theorem act_of_ok (l : Ledger) {g : Memory → Except Fault Memory} {memory : Memory}
    (hg : g l.heap.memory = .ok memory) :
    l.act (writing g) = { l with heap := l.heap.withMemory memory } := by
  rw [act, run_writing_of_ok hg]

theorem act_of_error (l : Ledger) {g : Memory → Except Fault Memory} {e : Fault}
    (hg : g l.heap.memory = .error e) : l.act (writing g) = l := by
  rw [act, run_writing_of_error hg]

section Making

/-- An allocation either makes something with a block of its own, or fails and leaves the blocks. -/
def Makes (c : Call) (h : Heap) (f : Contents) (x : HeapM Made) : Prop :=
  (∃ m ws h', x.run h = .ok m h' ∧ h'.discipline = .plain ∧ f m.start = none ∧
      h'.arena.Owns (f.put m.start ws) ∧ Begins m ws ∧ (c.Allowed → m.Regular)) ∨
    ∃ e h', x.run h = .error e h' ∧ h'.discipline = .plain ∧ h'.arena.Owns f

variable {h : Heap} {f : Contents} (hplain : h.discipline = .plain) (ho : h.arena.Owns f)
include hplain ho

theorem makes_constructor (uid nfields : Nat) :
    Makes (.constructor uid nfields) h f
      (Made.constructor uid nfields <$> HeapObject.allocate uid nfields) := by
  rw [Makes, run_map]
  cases hh : Header.ofFields? uid nfields with
  | error e =>
    rw [HeapObject.run_allocate_of_refused hh]
    exact .inr ⟨e, _, rfl, hplain, ho⟩
  | ok hd =>
    obtain ⟨hu', hn, -⟩ := Header.ofFields?_eq_ok hh
    rcases allocate_plain (r := .words (nfields + 1)) hplain ho rfl with
      ⟨x, h', hr, hd', -, hnew, -, ho⟩ | ⟨e, h', hr, hd', ha⟩
    · obtain ⟨m, hm, hown⟩ := HeapObject.run_allocate_of_ok hh hr ho (f.put_self _ _)
      rw [Contents.put_put] at hown
      rw [hm]
      refine .inl ⟨_, _, _, rfl, hd', hnew, hown, ?_, id⟩
      refine .object rfl (by rw [hu', hn]; rfl) trivial fun hu => ?_
      have huid : hd.uid ≠ closureUid := fun he => hu (hu'.symm.trans he)
      exact Header.fits_of_uid_ne huid (by simp [Made.contents, hn])
    · rw [HeapObject.run_allocate_of_error hh hr]
      exact .inr ⟨e, h', rfl, hd', ha ▸ ho⟩

theorem makes_closure (code descriptor : Word) (captures : List Nat) :
    Makes (.closure code descriptor captures) h f
      (Made.closure code descriptor (captures.filterMap (h.roots[·]?)) <$>
        Closure.allocate code descriptor captures) := by
  rw [Makes, run_map]
  cases hh : Header.ofFields? closureUid captures.length with
  | error e =>
    rw [Closure.run_allocate_of_refused hh]
    exact .inr ⟨e, _, rfl, hplain, ho⟩
  | ok hd =>
    obtain ⟨hu, hn, -⟩ := Header.ofFields?_eq_ok hh
    rcases allocate_plain (r := .words (1 + closureExtraSlots + captures.length)) hplain ho
        (by simp [Request.isEmpty, closureExtraSlots]) with
      ⟨x, h', hr, hd', hroots, hnew, -, ho⟩ | ⟨e, h', hr, hd', ha⟩
    · obtain ⟨m, ws, hlen, hown, hend⟩ :=
        Closure.run_allocate_of_ok code descriptor hh hr ho (f.put_self _ _)
      rw [Contents.put_put] at hown
      rw [hroots] at hend
      rcases hend with ⟨hws, hm⟩ | ⟨e, -, hm⟩
      · rw [hm, Roots.filterMap_of_mapM_read hws]
        refine .inl ⟨_, _, _, rfl, hd', hnew, hown, ?_, fun _ => trivial⟩
        refine .object rfl (by rw [hu, hn, ← hlen]; rfl) trivial fun _ => ?_
        exact Header.fits_closure hu (hlen.trans hn.symm)
      · rw [hm]
        exact .inr ⟨e, _, rfl, hd', hown.of_put hnew⟩
    · rw [Closure.run_allocate_of_error hh hr]
      exact .inr ⟨e, h', rfl, hd', ha ▸ ho⟩

theorem makes_cstring (bytes : List UInt8) :
    Makes (.cstring bytes) h f (Made.cstring bytes <$> CString.allocate bytes) := by
  rw [Makes, run_map]
  cases hh : CString.headerFor bytes with
  | error e =>
    rw [CString.run_allocate_of_refused hh]
    exact .inr ⟨e, _, rfl, hplain, ho⟩
  | ok hd =>
    obtain ⟨hzero, hu, hn, -⟩ := CString.headerFor_eq_ok hh
    rcases allocate_plain (r := .words (hd.nfields + 1)) hplain ho rfl with
      ⟨x, h', hr, hd', -, hnew, -, ho⟩ | ⟨e, h', hr, hd', ha⟩
    · obtain ⟨m, hm, hown⟩ := CString.run_allocate_of_ok hh hr ho (f.put_self _ _)
      rw [Contents.put_put, hn] at hown
      rw [hm]
      refine .inl ⟨_, _, _, rfl, hd', hnew, hown, ?_, fun _ => trivial⟩
      refine .object rfl (by rw [hu, hn]; rfl) hzero fun _ => ?_
      exact Header.fits_of_uid_ne (by rw [hu]; decide) ((CString.length_pack _ _).trans hn.symm)
    · rw [CString.run_allocate_of_error hh hr]
      exact .inr ⟨e, h', rfl, hd', ha ▸ ho⟩

theorem makes_pair : Makes .pair h f (Made.pair <$> Pair.allocate) := by
  rw [Makes, run_map, Pair.run_allocate]
  rcases allocate_plain (r := .words 2) hplain ho rfl with
    ⟨x, h', hr, hd', -, hnew, -, ho⟩ | ⟨e, h', hr, hd', ha⟩
  · rw [hr]
    exact .inl ⟨_, _, _, rfl, hd', hnew, ho, .pair ⟨x⟩, fun _ => trivial⟩
  · rw [hr]
    exact .inr ⟨e, h', rfl, hd', ha ▸ ho⟩

theorem makes_dword (d : DWord) : Makes (.dword d) h f (Made.dword d <$> d.allocate) := by
  rw [Makes, run_map]
  rcases allocate_plain (r := .dwords 1) hplain ho rfl with
    ⟨x, h', hr, hd', -, hnew, hal, ho⟩ | ⟨e, h', hr, hd', ha⟩
  · have hal : x % dwordSize = 0 := by
      simpa only [dwordSize, Request.alignment, Nat.mul_comm] using hal
    have hlt := (ho.start_aligned (f.put_self x _)).2
    have hstart : (Made.dword d (.taggedDWord x)).start = x :=
      Word.dwordAddress_taggedDWord hal hlt
    obtain ⟨m, hm, hown⟩ := DWord.run_allocate_of_ok (d := d) hr hal ho (f.put_self _ _)
    rw [Contents.put_put] at hown
    rw [hm]
    exact .inl ⟨_, _, _, rfl, hd', hstart.symm ▸ hnew, hstart.symm ▸ hown, .dword d hal hlt,
      fun _ => trivial⟩
  · rw [DWord.run_allocate_of_error hr]
    exact .inr ⟨e, h', rfl, hd', ha ▸ ho⟩

end Making

/-! ## Blocks -/

/-- What was made `k`-th has a block, with words of which this is told. -/
def Each (P : Writes → Nat → Made → List Word → Prop) (l : Ledger) (f : Contents) : Prop :=
  ∀ k m, l.made[k]? = some m → ∃ ws, f m.start = some ws ∧ P l.written k m ws

/-- The arena owns one block for each thing that was made, and no word was written to what was not
made. -/
structure Blocks (l : Ledger) (f : Contents) : Prop where
  plain : l.heap.discipline = .plain
  owns : l.heap.arena.Owns f
  stored : Each (fun _ _ m ws => ws.length = m.size) l f
  apart : ∀ {j k : Nat} {m n : Made}, l.made[j]? = some m → l.made[k]? = some n →
    m.start = n.start → j = k
  unwritten : ∀ {k}, l.made.length ≤ k → ∀ n, l.written.lookup (k, n) = none

/-- What is told of the words of a block depends on what was written to it alone. -/
def Local (P : Writes → Nat → Made → List Word → Prop) : Prop :=
  ∀ {written written' : Writes} {k : Nat} {m : Made} {ws : List Word}, P written k m ws →
    (∀ n, written'.lookup (k, n) = written.lookup (k, n)) → P written' k m ws

namespace Each

variable {P : Writes → Nat → Made → List Word → Prop} {l : Ledger} {f : Contents}

theorem of_block (he : Each P l f) {k : Nat} {m : Made} (hk : l.made[k]? = some m)
    {ws : List Word} (hf : f m.start = some ws) : P l.written k m ws := by
  obtain ⟨us, hf', hu⟩ := he k m hk
  obtain rfl := Option.some.inj (hf.symm.trans hf')
  exact hu

/-- Something new has a block of its own. -/
theorem concat (he : Each P l f) (hP : Local P) (hb : l.Blocks f) {m : Made} {ws : List Word}
    (hnew : f m.start = none) (hm : P [] l.made.length m ws) (h' : Heap) :
    Each P { l with heap := h', made := l.made ++ [m] } (f.put m.start ws) := by
  intro k n hk
  rcases getElem?_concat_cases hk with hk | ⟨rfl, rfl⟩
  · obtain ⟨us, hf, hu⟩ := he k n hk
    exact ⟨us, (f.put_of_ne _ (Contents.ne_of_eq_none hnew hf)).trans hf, hu⟩
  · exact ⟨ws, f.put_self _ _, hP hm fun n => hb.unwritten (Nat.le_refl _) n⟩

/-- The block of one thing changes with what was written to it. -/
theorem changed (he : Each P l f) (hP : Local P) (hb : l.Blocks f) {k : Nat} {m : Made}
    (hk : l.made[k]? = some m) {ws : List Word} {written : Writes}
    (hw : ∀ j n, j ≠ k → written.lookup (j, n) = l.written.lookup (j, n))
    (hm : P written k m ws) (h' : Heap) :
    Each P { l with heap := h', written } (f.put m.start ws) := by
  intro j n hj
  by_cases hjk : j = k
  · subst hjk
    obtain rfl : m = n := Option.some.inj (hk.symm.trans hj)
    exact ⟨ws, f.put_self _ _, hm⟩
  · obtain ⟨us, hf, hu⟩ := he j n hj
    have hne : n.start ≠ m.start := fun he => hjk (hb.apart hj hk he)
    exact ⟨us, (f.put_of_ne _ hne).trans hf, hP hu fun i => hw j i hjk⟩

end Each

/-! ## Turns -/

/-- The ledger and the blocks after a call, by what the call did to them. -/
inductive Turn (l : Ledger) (f : Contents) (c : Call) : Ledger → Contents → Prop where
  /-- The blocks are left alone. -/
  | keeps {h' : Heap} (hd : h'.discipline = .plain) (ho : h'.arena.Owns f) :
      Turn l f c { l with heap := h' } f
  /-- Something new is made. -/
  | makes {h' : Heap} {m : Made} {ws : List Word} (hd : h'.discipline = .plain)
      (hnew : f m.start = none) (ho : h'.arena.Owns (f.put m.start ws)) (hm : Begins m ws)
      (hreg : c.Allowed → m.Regular) :
      Turn l f c { l with heap := h', made := l.made ++ [m] } (f.put m.start ws)
  /-- A word is written to a slot of an object. The header is written by one call only. -/
  | setsSlot {k n : Nat} {m : Made} {o : HeapObject} {ws : List Word} {w : Word} {memory : Memory}
      (hk : l.made[k]? = some m) (hm : m.object? = some o) (hf : f m.start = some ws)
      (hn : n < ws.length) (hc : n = 0 → c = .setSlot k 0 w)
      (ho : (l.heap.withMemory memory).arena.Owns (f.put m.start (ws.set n w))) :
      Turn l f c { l with heap := l.heap.withMemory memory, written := ((k, n), w) :: l.written }
        (f.put m.start (ws.set n w))
  /-- A word is written to a component of a pair. -/
  | setsPair {k n : Nat} {p : Pair} {ws : List Word} {w : Word} {memory : Memory}
      (hk : l.made[k]? = some (.pair p)) (hf : f p.address = some ws) (hn : n < 2)
      (ho : (l.heap.withMemory memory).arena.Owns (f.put p.address (ws.set n w))) :
      Turn l f c { l with heap := l.heap.withMemory memory, written := ((k, n), w) :: l.written }
        (f.put p.address (ws.set n w))
  /-- A write to a slot of an object is entered, and refused because of the word in front. -/
  | refused {k n : Nat} {m : Made} {o : HeapObject} {w : Word} {e : Fault}
      (hk : l.made[k]? = some m) (hm : m.object? = some o) (hn : n < m.slotCount)
      (hc : n = 0 → c = .setSlot k 0 w) (he : o.write n w l.heap.memory = .error e) :
      Turn l f c { l with written := ((k, n), w) :: l.written } f
  /-- A header gets another mark. -/
  | marks {k : Nat} {m : Made} {o : HeapObject} {hd hd' : Header} {ws : List Word} {memory : Memory}
      (hk : l.made[k]? = some m) (hm : m.object? = some o) (hf : f m.start = some (hd.toWord :: ws))
      (hu : hd'.uid = hd.uid) (hn : hd'.nfields = hd.nfields)
      (ho : (l.heap.withMemory memory).arena.Owns (f.put m.start (hd'.toWord :: ws))) :
      Turn l f c { l with heap := l.heap.withMemory memory } (f.put m.start (hd'.toWord :: ws))

/-- The word in front of what was made `k`-th gives it this slot. -/
def Gives (l : Ledger) (k n : Nat) : Prop :=
  ∃ o w, l.object? k = some o ∧ l.heap.memory.read o.address = .ok w ∧ n < w.slotsGiven

end Ledger

/-- No word is written to a slot that the object was not made with, and that it only has because of
the word in front. -/
def Call.Confined (l : Ledger) : Call → Prop
  | .setSlot k n _ => l.Gives k n → n < l.slotCount k
  | .setArgument k n _ => l.Gives k (n + 1) → n + 1 < l.slotCount k
  | .setCapture k n _ => l.Gives k (n + 3) → n + 3 < l.slotCount k
  | _ => True

namespace Ledger

open Heap

theorem lookup_entered (l : Ledger) (k n : Nat) (w : Word) :
    ∀ j i, j ≠ k → List.lookup (j, i) (((k, n), w) :: l.written) = l.written.lookup (j, i) :=
  fun _ _ hj => Writes.lookup_cons_of_ne _ (.inl hj) w

theorem turn_allocate {l : Ledger} {f : Contents} {c : Call} {x : HeapM Made}
    (hx : Makes c l.heap f x) :
    ∃ g, Turn l f c (l.allocate x) g := by
  rcases hx with ⟨m, ws, h', hx, hd, hnew, ho, hm, hreg⟩ | ⟨e, h', hx, hd, ho⟩
  · rw [Ledger.allocate, hx]
    exact ⟨_, .makes hd hnew ho hm hreg⟩
  · rw [Ledger.allocate, hx]
    exact ⟨f, .keeps hd ho⟩

namespace Blocks

variable {l : Ledger} {f : Contents} (h : l.Blocks f)
include h

theorem slotCount_lt {k : Nat} {o : HeapObject} (ho : l.object? k = some o) :
    l.slotCount k < wordLimit := by
  obtain ⟨m, hk, hm⟩ := Option.bind_eq_some_iff.1 ho
  obtain ⟨ws, hf, hlen⟩ := h.stored _ _ hk
  rw [l.slotCount_eq hk, ← Made.size_of_object? hm, ← hlen]
  have hbelow := Nat.le_trans (h.owns.below hf) h.owns.valid.frontier_le_stop
  have hstop := h.owns.valid.stop_le
  simp only [Span.stop, wordSize, wordLimit] at *
  omega

/-- No slot has a number that no word can count to. -/
theorem turn_write_of_le (c : Call) {k n : Nat} {o : HeapObject} (ho : l.object? k = some o)
    (hn : wordLimit ≤ n) (w : Word) {g : Memory → Except Fault Memory} {e : Fault}
    (he : g l.heap.memory = .error e) : Turn l f c (l.write k n w (writing g)) f := by
  have hlt := h.slotCount_lt ho
  rw [Ledger.write, l.act_of_error he, if_neg (by omega)]
  exact .keeps h.plain h.owns

theorem turn_write {c : Call} {k n : Nat} {o : HeapObject} (ho : l.object? k = some o) (w : Word)
    (hconf : l.Gives k n → n < l.slotCount k) (hc : n = 0 → c = .setSlot k 0 w) :
    ∃ g, Turn l f c (l.write k n w (writing (o.write n w))) g := by
  obtain ⟨m, hk, hm⟩ := Option.bind_eq_some_iff.1 ho
  obtain ⟨ws, hf, hlen⟩ := h.stored _ _ hk
  have hstart := Made.start_of_object? hm
  have hcount : l.slotCount k = m.slotCount := l.slotCount_eq hk
  have hsize : ws.length = m.slotCount := hlen.trans (Made.size_of_object? hm)
  cases hx : o.write n w l.heap.memory with
  | error e =>
    rw [Ledger.write, l.act_of_error hx]
    split
    case isTrue hn => exact ⟨f, .refused hk hm (hcount ▸ hn) hc hx⟩
    case isFalse => exact ⟨f, .keeps h.plain h.owns⟩
  | ok memory =>
    obtain ⟨⟨v, hr, hv⟩, hwrite⟩ := HeapObject.gives_of_write hx
    have hn : n < l.slotCount k := hconf ⟨o, v, ho, hr, hv⟩
    have hlt : n < ws.length := by rwa [hsize, ← hcount]
    obtain ⟨memory', hwrite', hown⟩ := h.owns.write hf hlt w
    obtain rfl : memory' = memory := by
      rw [hstart] at hwrite'
      exact Except.ok.inj (hwrite'.symm.trans hwrite)
    rw [Ledger.write, l.act_of_ok hx, if_pos hn]
    exact ⟨_, .setsSlot hk hm hf hlt hc hown⟩

theorem turn_writePair (c : Call) {k n : Nat} {p : Pair} (hp : l.pair? k = some p) (hn : n < 2)
    (w : Word) {g : Memory → Except Fault Memory}
    (hg : g = fun memory => memory.write (p.address + wordSize * n) w) :
    ∃ f', Turn l f c (l.write k n w (writing g)) f' := by
  obtain ⟨m, hk, hm⟩ := Option.bind_eq_some_iff.1 hp
  obtain rfl := Made.eq_of_pair? hm
  obtain ⟨ws, hf, hlen⟩ := h.stored _ _ hk
  obtain ⟨memory, hmem, hown⟩ := h.owns.write hf (lt_of_lt_of_eq hn hlen.symm) w
  have hact : g l.heap.memory = .ok memory := by
    rw [hg]
    exact hmem
  rw [Ledger.write, l.act_of_ok hact, if_pos (by rw [l.slotCount_eq hk]; exact hn)]
  exact ⟨_, .setsPair hk hf hn hown⟩

theorem turn_mark (c : Call) {k : Nat} {o : HeapObject} (ho : l.object? k = some o)
    (mark : Header → Header) (hu : ∀ hd, (mark hd).uid = hd.uid ∧ (mark hd).nfields = hd.nfields)
    {x : Memory → Except Fault Memory}
    (hx : x = fun m => do m.write o.address (mark (← o.header m)).toWord) :
    ∃ g, Turn l f c (l.act (writing x)) g := by
  obtain ⟨m, hk, hm⟩ := Option.bind_eq_some_iff.1 ho
  obtain ⟨ws, hf, hlen⟩ := h.stored _ _ hk
  have hstart := Made.start_of_object? hm
  obtain ⟨w, ws, rfl⟩ := List.exists_cons_of_ne_nil (h.owns.ne_nil hf)
  have hread : l.heap.memory.read o.address = .ok w := h.owns.read_start (hstart ▸ hf)
  cases hw : Header.ofWord? w with
  | none =>
    have hfail : x l.heap.memory = .error (.violated (.notAHeader o.address w.toNat)) := by
      rw [hx]
      simp only [HeapObject.header_of_none hread hw]
      rfl
    rw [l.act_of_error hfail]
    exact ⟨f, .keeps h.plain h.owns⟩
  | some hd =>
    obtain rfl : hd.toWord = w := Header.ofWord?_eq_some_iff.1 hw
    obtain ⟨memory, hmem, hown⟩ := h.owns.writeStart hf (mark hd).toWord
    have hact : x l.heap.memory = .ok memory := by
      rw [hx]
      simp only [HeapObject.header_of_read hread hw]
      exact hstart ▸ hmem
    rw [l.act_of_ok hact]
    exact ⟨_, .marks hk hm hf (hu hd).1 (hu hd).2 hown⟩

/-- This is all that a call does. -/
theorem turn {c : Call} (hc : c.Confined l) : ∃ g, Turn l f c (l.call c) g := by
  cases c with
  | withRoots r => exact ⟨f, .keeps h.plain h.owns⟩
  | constructor uid nfields => exact turn_allocate (makes_constructor h.plain h.owns uid nfields)
  | closure code descriptor captures =>
    exact turn_allocate (makes_closure h.plain h.owns code descriptor captures)
  | cstring bytes => exact turn_allocate (makes_cstring h.plain h.owns bytes)
  | pair => exact turn_allocate (makes_pair h.plain h.owns)
  | dword d => exact turn_allocate (makes_dword h.plain h.owns d)
  | setSlot k n w =>
    rw [Ledger.call]
    split
    case h_1 o ho =>
      apply h.turn_write ho w hc
      rintro rfl
      rfl
    case h_2 => exact ⟨f, .keeps h.plain h.owns⟩
  | setArgument k n w =>
    rw [Ledger.call]
    split
    case h_2 => exact ⟨f, .keeps h.plain h.owns⟩
    case h_1 o ho =>
      by_cases hn : n + 1 < wordLimit
      · rw [HeapObject.setArgument_eq_write o hn]
        exact h.turn_write ho w hc (by simp)
      · have hn := Nat.not_lt.1 hn
        exact ⟨f, h.turn_write_of_le _ ho hn w (HeapObject.setArgument_of_le o hn w _)⟩
  | setCapture k n w =>
    rw [Ledger.call]
    split
    case h_2 => exact ⟨f, .keeps h.plain h.owns⟩
    case h_1 c hclosure =>
      obtain ⟨m, hk, hm⟩ := Option.bind_eq_some_iff.1 hclosure
      have ho : l.object? k = some c.object :=
        Option.bind_eq_some_iff.2 ⟨m, hk, Made.object?_of_closure? hm⟩
      by_cases hn : n + 3 < wordLimit
      · rw [Closure.setCapture_eq_write c hn]
        exact h.turn_write ho w hc (by simp)
      · have hn := Nat.not_lt.1 hn
        exact ⟨f, h.turn_write_of_le _ ho hn w (Closure.setCapture_of_le c hn w _)⟩
  | setFirst k w =>
    rw [Ledger.call]
    split
    case h_1 p hp => exact h.turn_writePair _ hp Nat.two_pos w rfl
    case h_2 => exact ⟨f, .keeps h.plain h.owns⟩
  | setSecond k w =>
    rw [Ledger.call]
    split
    case h_1 p hp => exact h.turn_writePair _ hp Nat.one_lt_two w rfl
    case h_2 => exact ⟨f, .keeps h.plain h.owns⟩
  | mark k =>
    rw [Ledger.call]
    split
    case h_1 o ho => exact h.turn_mark _ ho Header.mark (fun _ => ⟨rfl, rfl⟩) rfl
    case h_2 => exact ⟨f, .keeps h.plain h.owns⟩
  | unmark k =>
    rw [Ledger.call]
    split
    case h_1 o ho => exact h.turn_mark _ ho Header.unmark (fun _ => ⟨rfl, rfl⟩) rfl
    case h_2 => exact ⟨f, .keeps h.plain h.owns⟩

theorem unwritten_entered {k : Nat} {m : Made} (hk : l.made[k]? = some m) (n : Nat) (w : Word)
    {j : Nat} (hj : l.made.length ≤ j) (i : Nat) :
    List.lookup (j, i) (((k, n), w) :: l.written) = none := by
  have hlt := (List.getElem?_eq_some_iff.1 hk).1
  rw [l.lookup_entered k n w j i (by omega)]
  exact h.unwritten hj i

end Blocks

/-- Every turn leaves one block for each thing that was made. -/
theorem Turn.blocks {l l' : Ledger} {f g : Contents} {c : Call} (ht : Turn l f c l' g)
    (h : l.Blocks f) : l'.Blocks g := by
  have hlocal : Local fun _ _ m ws => ws.length = m.size := fun hlen _ => hlen
  cases ht with
  | keeps hd ho => exact ⟨hd, ho, h.stored, h.apart, h.unwritten⟩
  | makes hd hnew ho hm hreg =>
    refine ⟨hd, ho, h.stored.concat hlocal h hnew hm.length_eq _, ?_, ?_⟩
    · apply Made.apart_concat h.apart
      intro k n hk
      obtain ⟨us, hf, -⟩ := h.stored _ _ hk
      exact Contents.ne_of_eq_none hnew hf
    · intro k hk n
      rw [List.length_append] at hk
      exact h.unwritten (Nat.le_of_add_right_le hk) n
  | @setsSlot k n m o ws w memory hk hm hf hn hc ho =>
    have hlen : (ws.set n w).length = _ := List.length_set.trans (h.stored.of_block hk hf)
    have hstored := h.stored.changed hlocal h hk (l.lookup_entered k n w) hlen
    exact ⟨h.plain, ho, hstored _, h.apart, h.unwritten_entered hk n w⟩
  | @setsPair k n p ws w memory hk hf hn ho =>
    have hlen : (ws.set n w).length = _ := List.length_set.trans (h.stored.of_block hk hf)
    have hstored := h.stored.changed hlocal h hk (l.lookup_entered k n w) hlen
    exact ⟨h.plain, ho, hstored _, h.apart, h.unwritten_entered hk n w⟩
  | @refused k n m o w e hk hm hn hc he =>
    exact ⟨h.plain, h.owns, h.stored, h.apart, h.unwritten_entered hk n w⟩
  | @marks k m o hd hd' ws memory hk hm hf hu hn ho =>
    have hlen : (hd'.toWord :: ws).length = m.size := by
      have hold := h.stored.of_block hk hf
      rwa [List.length_cons] at hold ⊢
    have hstored := h.stored.changed hlocal h hk (fun _ _ _ => rfl) hlen
    exact ⟨h.plain, ho, hstored _, h.apart, h.unwritten⟩

theorem blocks_new (config : ArenaConfig) :
    Blocks { heap := { arena := { config } } } fun _ => none where
  plain := rfl
  owns := (Arena.valid_new config).owns_none
  stored := fun _ _ hk => by simp at hk
  apart := fun hj => by simp at hj
  unwritten := fun _ _ => rfl

end Ledger

end TaggedHeap
