import TaggedHeap.Proofs.Heap.Construction
import TaggedHeap.Proofs.Heap.Refusals

/-!
# Strings

Whether a string can be made of bytes is decided before memory is asked for, by the bytes alone. The
string that is made holds them whatever its block held before: a zero byte follows them in its last
word, so the search for their end stays inside of the block.
-/

namespace TaggedHeap

theorem Header.ofFields?_of_le {uid nfields : Nat} (hu : uid < maxUids) (hn : nfields ≤ maxFields) :
    Header.ofFields? uid nfields = .ok ⟨uid, nfields, false, hu, hn⟩ := by
  rw [ofFields?, dif_pos hu, dif_pos hn]

theorem Header.ofFields?_of_lt {uid nfields : Nat} (hu : uid < maxUids) (hn : maxFields < nfields) :
    Header.ofFields? uid nfields = .error (.refused (.tooManyFields nfields)) := by
  rw [ofFields?, dif_pos hu, dif_neg (Nat.not_le.2 hn)]

theorem Header.ofFields?_of_uid {uid : Nat} (hu : maxUids ≤ uid) (nfields : Nat) :
    Header.ofFields? uid nfields = .error (.refused (.uidOutOfRange uid)) := by
  rw [ofFields?, dif_neg (Nat.not_lt.2 hu)]

namespace CString

open Heap

variable {bytes : List UInt8}

/-- The fields of a string of so many bytes, the zero byte behind them included. -/
def fieldsFor (length : Nat) : Nat := length / wordSize + 1

theorem wordsFor_succ (n : Nat) : wordsFor (n + 1) = fieldsFor n := by
  simp only [wordsFor, fieldsFor, wordSize]
  omega

/-- The most bytes that a string holds. -/
def maxBytes : Nat := maxFields * wordSize - 1

example : maxBytes = 2039 := rfl

theorem fieldsFor_le_iff {n : Nat} : fieldsFor n ≤ maxFields ↔ n ≤ maxBytes := by
  simp only [fieldsFor, maxBytes, maxFields, wordSize]
  omega

/-! ## What is checked -/

/-- The first zero byte is at this position. -/
def FirstZero (bytes : List UInt8) (i : Nat) : Prop := bytes[i]? = some 0 ∧ 0 ∉ bytes.take i

theorem findIdx?_eq_some_iff {i : Nat} :
    bytes.findIdx? (· == 0) = some i ↔ FirstZero bytes i := by
  simp only [List.findIdx?_eq_some_iff_getElem, beq_iff_eq, FirstZero, List.getElem?_eq_some_iff,
    List.mem_take_iff_getElem]
  constructor
  · rintro ⟨hi, hz, hne⟩
    refine ⟨⟨hi, hz⟩, ?_⟩
    rintro ⟨j, hj, hzj⟩
    exact hne j (by omega) hzj
  · rintro ⟨⟨hi, hz⟩, hne⟩
    exact ⟨hi, hz, fun j hj hzj => hne ⟨j, by omega, hzj⟩⟩

theorem findIdx?_eq_none_iff : bytes.findIdx? (· == 0) = none ↔ 0 ∉ bytes := by
  simp only [List.findIdx?_eq_none_iff, beq_eq_false_iff_ne]
  constructor
  · intro h hz
    exact h 0 hz rfl
  · rintro h b hb rfl
    exact h hb

theorem FirstZero.mem {i : Nat} (h : FirstZero bytes i) : 0 ∈ bytes :=
  List.mem_of_getElem? h.1

theorem headerFor_of_firstZero {i : Nat} (h : FirstZero bytes i) :
    headerFor bytes = .error (.refused (.interiorNul i)) := by
  rw [headerFor, findIdx?_eq_some_iff.2 h]

theorem headerFor_of_lt (hz : 0 ∉ bytes) (hl : maxBytes < bytes.length) :
    headerFor bytes = .error (.refused (.tooManyFields (fieldsFor bytes.length))) := by
  have hn : maxFields < fieldsFor bytes.length := by
    rw [← Nat.not_le, fieldsFor_le_iff]
    omega
  rw [headerFor, findIdx?_eq_none_iff.2 hz, wordsFor_succ]
  exact Header.ofFields?_of_lt (by decide) hn

theorem headerFor_of_le (hz : 0 ∉ bytes) (hl : bytes.length ≤ maxBytes) :
    ∃ hd, headerFor bytes = .ok hd := by
  rw [headerFor, findIdx?_eq_none_iff.2 hz, wordsFor_succ]
  exact ⟨_, Header.ofFields?_of_le (by decide) (fieldsFor_le_iff.2 hl)⟩

/-! ## What is written -/

/-- The string holds the bytes in its own slots, with zeros behind them up to a whole word. -/
structure Stored (s : CString) (bytes : List UInt8) (m : Memory) : Prop where
  header : ∃ hd, s.object.header m = .ok hd ∧ hd.uid = cstringUid ∧
    hd.nfields = fieldsFor bytes.length ∧ hd.marked = false ∧
    hd.layout.referencesEnd = hd.layout.referencesStart
  inChunk : m.InChunk ⟨s.object.address, fieldsFor bytes.length + 1⟩
  arguments : s.object.arguments m = .ok (pack (fieldsFor bytes.length) bytes)
  padded : (pack (fieldsFor bytes.length) bytes).flatMap Word.bytes =
    bytes ++ List.replicate (wordSize * fieldsFor bytes.length - bytes.length) 0
  ends : bytes.length < wordSize * fieldsFor bytes.length
  bytes_eq : s.bytes m = .ok bytes

theorem stored_of_holds {m : Memory} {s : CString} {hd : Header} (hh : headerFor bytes = .ok hd)
    (hm : m.Holds s.object.address (hd.toWord :: pack hd.nfields bytes))
    (hc : m.InChunk ⟨s.object.address, hd.nfields + 1⟩) : s.Stored bytes m := by
  obtain ⟨hz, hu, hn, hmark⟩ := headerFor_eq_ok hh
  rw [hn] at hm hc
  have hlt := length_lt_wordsFor bytes.length
  have hlen := length_pack (wordsFor (bytes.length + 1)) bytes
  have hfit : hd.Fits (pack (wordsFor (bytes.length + 1)) bytes) :=
    Header.fits_of_uid_ne (hu ▸ by decide) (hlen.trans hn.symm)
  have hbytes := bytes_of_holds hm (hlen.symm ▸ hc) (zero_mem_bytes_pack bytes)
  have harguments := HeapObject.arguments_eq hm hfit
  have hlayout : hd.layout = .cstring hd.nfields := by
    rw [Header.layout, Layout.ofHeader, Header.isClosure, Header.isCString, hu]
    rfl
  rw [takeWhile_bytes_pack hz] at hbytes
  rw [List.take_of_length_le (Nat.le_of_eq (hlen.trans hn.symm))] at harguments
  rw [wordsFor_succ] at hn hc hlt harguments
  refine ⟨⟨hd, HeapObject.header_eq hm, hu, hn, hmark, ?_⟩, hc, harguments,
    bytes_pack (Nat.le_of_lt hlt), hlt, hbytes⟩
  rw [hlayout]
  rfl

/-! ## What a call does -/

theorem run_allocate_of_request {h g : Heap} {x : Nat} (hz : 0 ∉ bytes)
    (hl : bytes.length ≤ maxBytes)
    (hrun : (Heap.allocate (.words (fieldsFor bytes.length + 1))).run h = .ok x g) :
    ∃ m, (CString.allocate bytes).run h = .ok ⟨⟨x⟩⟩ (g.withMemory m) ∧
      (CString.mk ⟨x⟩).Stored bytes m ∧
      g.memory.ChangedWithin ⟨x, fieldsFor bytes.length + 1⟩ m := by
  obtain ⟨hd, hh⟩ := headerFor_of_le hz hl
  obtain ⟨-, -, hn, -⟩ := headerFor_eq_ok hh
  rw [wordsFor_succ] at hn
  rw [← hn] at hrun ⊢
  have hc := inChunk_of_allocate (r := .words (hd.nfields + 1)) rfl hrun
  obtain ⟨ws, hlen, hold⟩ := hc.exists_holds
  obtain ⟨w, ws, rfl⟩ := List.exists_cons_of_length_eq_add_one hlen
  obtain ⟨m, hmade, hwords, hch⟩ := run_allocate_of_holds hh hrun hold (Nat.succ.inj hlen)
  exact ⟨m, hmade, stored_of_holds hh hwords (hc.of_sizes_eq hch.sizes_eq), hch⟩

theorem run_allocate_of_request_error {h g : Heap} {e : Fault} (hz : 0 ∉ bytes)
    (hl : bytes.length ≤ maxBytes)
    (hrun : (Heap.allocate (.words (fieldsFor bytes.length + 1))).run h = .error e g) :
    (CString.allocate bytes).run h = .error e g := by
  obtain ⟨hd, hh⟩ := headerFor_of_le hz hl
  obtain ⟨-, -, hn, -⟩ := headerFor_eq_ok hh
  rw [← wordsFor_succ, ← hn] at hrun
  exact run_allocate_of_error hh hrun

theorem exists_firstZero (hz : 0 ∈ bytes) : ∃ i, FirstZero bytes i := by
  cases hi : bytes.findIdx? (· == 0) with
  | some i => exact ⟨i, findIdx?_eq_some_iff.1 hi⟩
  | none => exact absurd hz (findIdx?_eq_none_iff.1 hi)

/-- The ways in which an allocation is refused, and the heap that each leaves. -/
inductive Rejects (bytes : List UInt8) (h : Heap) : Refusal → Heap → Prop where
  | interiorNul {i : Nat} (hi : FirstZero bytes i) : Rejects bytes h (.interiorNul i) h
  | tooManyFields (hz : 0 ∉ bytes) (hl : maxBytes < bytes.length) :
    Rejects bytes h (.tooManyFields (fieldsFor bytes.length)) h
  | outOfMemory (g : Heap) : Rejects bytes h (.outOfMemory (fieldsFor bytes.length + 1)) g

theorem rejects_of_run {h h' : Heap} {c : Refusal}
    (hrun : (CString.allocate bytes).run h = .error (.refused c) h') : Rejects bytes h c h' := by
  by_cases hz : 0 ∈ bytes
  case pos =>
    obtain ⟨i, hi⟩ := exists_firstZero hz
    rw [run_allocate_of_refused (headerFor_of_firstZero hi)] at hrun
    cases hrun
    exact .interiorNul hi
  by_cases hl : bytes.length ≤ maxBytes
  case neg =>
    rw [run_allocate_of_refused (headerFor_of_lt hz (Nat.not_le.1 hl))] at hrun
    cases hrun
    exact .tooManyFields hz (Nat.not_le.1 hl)
  cases ha : (Heap.allocate (.words (fieldsFor bytes.length + 1))).run h with
  | ok x g =>
    obtain ⟨m, hm, -⟩ := run_allocate_of_request hz hl ha
    rw [hm] at hrun
    cases hrun
  | error e g =>
    rw [run_allocate_of_request_error hz hl ha] at hrun
    cases hrun
    obtain rfl := refused_of_allocate ha
    exact .outOfMemory _

/-- Bytes are refused for the first zero byte among them, or if there is none for their number, and
then no memory was asked for: the heap is as it was. Otherwise the allocation fails only if the
request for the words of the string does. If that is given a block, the string is in it, and when it
is read the bytes come back; its words depend on the bytes alone. Words outside of the block are not
written, and without a collector all of them are as before the call. -/
theorem allocate_round_trip (h : Heap) (bytes : List UInt8) :
    let n := fieldsFor bytes.length
    (0 ∈ bytes ↔ ∃ i, FirstZero bytes i) ∧
    (∀ i h', (CString.allocate bytes).run h = .error (.refused (.interiorNul i)) h' ↔
      FirstZero bytes i ∧ h' = h) ∧
    (∀ k h', (CString.allocate bytes).run h = .error (.refused (.tooManyFields k)) h' ↔
      0 ∉ bytes ∧ maxBytes < bytes.length ∧ k = n ∧ h' = h) ∧
    (0 ∉ bytes → bytes.length ≤ maxBytes →
      (∀ e h', (Heap.allocate (.words (n + 1))).run h = .error e h' →
        (CString.allocate bytes).run h = .error e h') ∧
      ∀ x g, (Heap.allocate (.words (n + 1))).run h = .ok x g →
        ∃ m, (CString.allocate bytes).run h = .ok ⟨⟨x⟩⟩ (g.withMemory m) ∧
          (CString.mk ⟨x⟩).Stored bytes m ∧ g.memory.ChangedWithin ⟨x, n + 1⟩ m ∧
          (h.discipline = .plain → ∀ a w, a < x ∨ (Span.mk x (n + 1)).stop ≤ a →
            h.memory.read a = .ok w → m.read a = .ok w)) := by
  intro n
  refine ⟨⟨exists_firstZero, fun ⟨i, hi⟩ => hi.mem⟩, fun i h' => ⟨fun hrun => ?_, ?_⟩,
    fun k h' => ⟨fun hrun => ?_, ?_⟩, fun hz hl => ?_⟩
  · cases rejects_of_run hrun with
    | interiorNul hi => exact ⟨hi, rfl⟩
  · rintro ⟨hi, rfl⟩
    exact run_allocate_of_refused (headerFor_of_firstZero hi)
  · cases rejects_of_run hrun with
    | tooManyFields hz hl => exact ⟨hz, hl, rfl, rfl⟩
  · rintro ⟨hz, hl, rfl, rfl⟩
    exact run_allocate_of_refused (headerFor_of_lt hz hl)
  · refine ⟨fun e h' ha => run_allocate_of_request_error hz hl ha, fun x g ha => ?_⟩
    obtain ⟨m, hm, hstored, hch⟩ := run_allocate_of_request hz hl ha
    refine ⟨m, hm, hstored, hch, fun hd a w ha' hw => ?_⟩
    rw [hch.read_eq a ha']
    exact read_of_allocate (by simp [Discipline.Still, hd]) rfl ha hw

/-- Two bytes in a new heap, and three with a zero among them. -/
theorem allocate_round_trip_two :
    let h : Heap := { arena := { config := { chunkWords := 4 } } }
    (∃ s h', (CString.allocate [104, 105]).run h = .ok s h' ∧ s.bytes h'.memory = .ok [104, 105]) ∧
    (CString.allocate [104, 0, 105]).run h = .error (.refused (.interiorNul 1)) h := by
  intro h
  refine ⟨?_, ((allocate_round_trip h [104, 0, 105]).2.1 1 h).2 ⟨by unfold FirstZero; decide, rfl⟩⟩
  obtain ⟨-, hmade⟩ := (allocate_round_trip h [104, 105]).2.2.2 (by decide) (by decide)
  have hserved : (h.serve (.words 2)).1.toOption = some Memory.origin := by decide +kernel
  rw [Heap.serve] at hserved
  cases ha : (Heap.allocate (.words 2)).run h with
  | error e g =>
    rw [ha] at hserved
    cases hserved
  | ok x g =>
    obtain ⟨m, hrun, hstored, -⟩ := hmade x g ha
    exact ⟨_, _, hrun, hstored.bytes_eq⟩

end CString

end TaggedHeap
