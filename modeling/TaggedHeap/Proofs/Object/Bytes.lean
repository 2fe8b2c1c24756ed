import TaggedHeap.CString
import TaggedHeap.Proofs.Object.Slots

/-!
# Bytes of strings

Bytes packed into words are read back with zeros behind them, as many as fill the last word. A
string whose slots hold a zero byte is read from its own slots alone, whatever stands behind it in
the chunk.
-/

namespace TaggedHeap

namespace Word

/-- One past the largest number that so many bytes hold. -/
def byteLimit : Nat → Nat
  | 0 => 1
  | k + 1 => 256 * byteLimit k

/-- The number with the given bytes, the least significant first. -/
def byteValue (bs : List UInt8) : Nat := bs.foldr (fun b n => b.toNat + 256 * n) 0

@[simp] theorem byteValue_cons (b : UInt8) (bs : List UInt8) :
    byteValue (b :: bs) = b.toNat + 256 * byteValue bs := rfl

theorem byteValue_lt {bs : List UInt8} {k : Nat} (h : bs.length ≤ k) :
    byteValue bs < byteLimit k := by
  induction k generalizing bs with
  | zero =>
    obtain rfl : bs = [] := List.length_eq_zero_iff.1 (Nat.le_zero.1 h)
    exact Nat.one_pos
  | succ k ih =>
    cases bs with
    | nil =>
      have hz := @ih [] (Nat.zero_le k)
      simp only [byteLimit]
      omega
    | cons b bs =>
      have hr := ih (Nat.le_of_succ_le_succ h)
      have hb := b.toNat_lt
      simp only [byteValue_cons, byteLimit]
      omega

theorem lowBytes_zero (k : Nat) : lowBytes 0 k = List.replicate k 0 := by
  induction k with
  | zero => rfl
  | succ k ih => rw [lowBytes, Nat.zero_div, ih, List.replicate_succ]; rfl

theorem lowBytes_byteValue {bs : List UInt8} {k : Nat} (h : bs.length ≤ k) :
    lowBytes (byteValue bs) k = bs ++ List.replicate (k - bs.length) 0 := by
  induction k generalizing bs with
  | zero =>
    obtain rfl : bs = [] := List.length_eq_zero_iff.1 (Nat.le_zero.1 h)
    rfl
  | succ k ih =>
    cases bs with
    | nil => exact lowBytes_zero (k + 1)
    | cons b bs =>
      have hb := b.toNat_lt
      have hhead : UInt8.ofNat (b.toNat + 256 * byteValue bs) = b := by
        rw [← UInt8.toNat_inj, UInt8.toNat_ofNat']
        omega
      have htail : (b.toNat + 256 * byteValue bs) / 256 = byteValue bs := by omega
      rw [byteValue_cons, lowBytes, hhead, htail, ih (Nat.le_of_succ_le_succ h)]
      simp

theorem bytes_ofBytes {bs : List UInt8} (h : bs.length ≤ wordSize) :
    (ofBytes bs).bytes = bs ++ List.replicate (wordSize - bs.length) 0 := by
  have hlt : byteValue bs < wordLimit := byteValue_lt h
  rw [bytes, ofBytes]
  change lowBytes (ofNat (byteValue bs)).toNat wordSize = _
  rw [toNat_ofNat_of_lt hlt, lowBytes_byteValue h]

end Word

namespace CString

theorem length_pack (n : Nat) (bs : List UInt8) : (pack n bs).length = n := by
  simp [pack]

theorem pack_succ (n : Nat) (bs : List UInt8) :
    pack (n + 1) bs = Word.ofBytes (bs.take wordSize) :: pack n (bs.drop wordSize) := by
  simp only [pack, List.range_succ_eq_map, List.map_cons, List.map_map, Nat.mul_zero,
    List.drop_zero, List.cons.injEq, true_and]
  apply List.map_congr_left
  intro i _
  simp only [Function.comp_apply, List.drop_drop, Nat.mul_succ, Nat.add_comm]

/-- The bytes of packed words are the bytes packed, with zeros up to a whole word. -/
theorem bytes_pack {n : Nat} {bs : List UInt8} (h : bs.length ≤ wordSize * n) :
    (pack n bs).flatMap Word.bytes = bs ++ List.replicate (wordSize * n - bs.length) 0 := by
  induction n generalizing bs with
  | zero =>
    obtain rfl : bs = [] := List.length_eq_zero_iff.1 (Nat.le_zero.1 h)
    rfl
  | succ n ih =>
    have htake : (bs.take wordSize).length ≤ wordSize := List.length_take_le _ _
    have hdrop : (bs.drop wordSize).length ≤ wordSize * n := by
      rw [List.length_drop]
      simp only [wordSize] at *
      omega
    rw [pack_succ, List.flatMap_cons, Word.bytes_ofBytes htake, ih hdrop]
    by_cases hlen : bs.length ≤ wordSize
    case pos =>
      rw [List.take_of_length_le hlen, List.drop_eq_nil_of_le hlen, List.nil_append,
        List.append_assoc, List.replicate_append_replicate]
      congr 2
      simp only [wordSize, List.length_nil] at *
      omega
    case neg =>
      have hzero : wordSize - (bs.take wordSize).length = 0 := by
        rw [List.length_take]
        omega
      rw [hzero, List.replicate_zero, List.append_nil, ← List.append_assoc,
        List.take_append_drop, List.length_drop]
      congr 2
      simp only [wordSize] at *
      omega

theorem length_lt_wordsFor (n : Nat) : n < wordSize * wordsFor (n + 1) := by
  simp only [wordsFor, wordSize]
  omega

/-- The bytes packed end at the first zero byte, if there is none among them. -/
theorem takeWhile_bytes_pack {bs : List UInt8} (h : 0 ∉ bs) :
    ((pack (wordsFor (bs.length + 1)) bs).flatMap Word.bytes).takeWhile (· != 0) = bs := by
  have hlen := length_lt_wordsFor bs.length
  rw [bytes_pack (Nat.le_of_lt hlen), List.takeWhile_append_of_pos]
  · rw [List.takeWhile_replicate]
    simp
  · intro b hb
    have hne : b ≠ 0 := fun he => h (he ▸ hb)
    simpa using hne

theorem zero_mem_bytes_pack (bs : List UInt8) :
    0 ∈ (pack (wordsFor (bs.length + 1)) bs).flatMap Word.bytes := by
  have hlen := length_lt_wordsFor bs.length
  rw [bytes_pack (Nat.le_of_lt hlen)]
  refine List.mem_append_right _ (List.mem_replicate.2 ⟨?_, rfl⟩)
  omega

end CString

namespace Memory

theorem InChunk.tail {m : Memory} {x n : Nat} (h : m.InChunk ⟨x, n + 1⟩) :
    m.InChunk ⟨x + wordSize, n⟩ := by
  obtain ⟨k, c, start, hk, hx, hl⟩ := h
  refine ⟨k, c, start + 1, hk, ?_, by simp only at *; omega⟩
  simp only [address, wordSize] at *
  omega

/-- The words up to the end of the chunk are those of the places from the first one on. -/
theorem readRest_eq {m : Memory} {a : Nat} {p : Place} (h : m.target a = .ok p) :
    ∃ ws, m.readRest a = .ok ws ∧ ws.length = (m.sizes[p.chunk]?).getD 0 - p.word ∧
      ∀ i, ws[i]? = m.get? ⟨p.chunk, p.word + i⟩ := by
  refine ⟨((m.chunks[p.chunk]?).getD #[]).toList.drop p.word, ?_, ?_, fun i => ?_⟩
  · rw [readRest, h]
    rfl
  · rw [List.length_drop, Array.length_toList, sizes, List.getElem?_map]
    cases m.chunks[p.chunk]? <;> rfl
  · rw [List.getElem?_drop, Array.getElem?_toList, get?]
    cases m.chunks[p.chunk]? <;> simp

/-- What is read up to the end of the chunk begins with the words that are known. -/
theorem readRest_of_holds {m : Memory} {x : Nat} {ws : List Word} (h : m.Holds x ws)
    (hne : ws ≠ []) (hc : m.InChunk ⟨x, ws.length⟩) : ∃ rest, m.readRest x = .ok (ws ++ rest) := by
  obtain ⟨k, chunk, start, hk, rfl, hl⟩ := hc
  have hplace : ∀ i, i < ws.length → ∃ w, m.get? ⟨k, start + i⟩ = some w := by
    intro i hi
    have hlt : start + i < chunk.size := by simp only at hl; omega
    refine ⟨chunk[start + i], ?_⟩
    rw [get?, hk]
    exact Array.getElem?_eq_getElem hlt
  obtain ⟨w, hw⟩ := hplace 0 (List.length_pos_iff.2 hne)
  obtain ⟨us, hus, -, hget⟩ := readRest_eq (target_address hw)
  have hprefix : ws <+: us := by
    apply List.prefix_iff_getElem?.2
    intro i hi
    obtain ⟨v, hv⟩ := hplace i hi
    have hread := read_address hv
    rw [address_add, h i _ (List.getElem?_eq_getElem hi)] at hread
    rw [hget, Nat.add_zero, hv, Except.ok.inj hread]
  obtain ⟨rest, rfl⟩ := hprefix
  exact ⟨rest, hus⟩

end Memory

theorem takeWhile_append_of_mem {α : Type} {p : α → Bool} {l r : List α} {a : α} (ha : a ∈ l)
    (hp : p a = false) : (l ++ r).takeWhile p = l.takeWhile p := by
  induction l with
  | nil => simp at ha
  | cons b l ih =>
    rw [List.cons_append, List.takeWhile_cons, List.takeWhile_cons]
    split
    case isTrue hb =>
      rcases List.mem_cons.1 ha with rfl | ha
      · simp [hp] at hb
      · rw [ih ha]
    case isFalse => rfl

/-- Nothing behind a zero byte belongs to the string. -/
theorem CString.bytes_of_readRest {m : Memory} {s : CString} {ws rest : List Word}
    (hr : m.readRest (s.object.slotAddress 1) = .ok (ws ++ rest))
    (hz : 0 ∈ ws.flatMap Word.bytes) :
    s.bytes m = .ok ((ws.flatMap Word.bytes).takeWhile (· != 0)) := by
  have hmem : (ws.flatMap Word.bytes ++ rest.flatMap Word.bytes).contains 0 = true := by
    simp only [List.contains_iff_mem, List.mem_append]
    exact .inl hz
  simp only [bytes, hr, bind, Except.bind, List.flatMap_append, hmem, if_true, pure, Except.pure]
  rw [takeWhile_append_of_mem hz (by decide)]

/-- A string is read from its own slots if there is a zero byte in them. -/
theorem CString.bytes_of_holds {m : Memory} {s : CString} {w : Word} {ws : List Word}
    (h : m.Holds s.object.address (w :: ws)) (hc : m.InChunk ⟨s.object.address, ws.length + 1⟩)
    (hz : 0 ∈ ws.flatMap Word.bytes) :
    s.bytes m = .ok ((ws.flatMap Word.bytes).takeWhile (· != 0)) := by
  have hne : ws ≠ [] := by
    rintro rfl
    simp at hz
  obtain ⟨rest, hr⟩ := Memory.readRest_of_holds (Memory.holds_cons.1 h).2 hne hc.tail
  exact bytes_of_readRest hr hz

/-- So many slots behind the header of a string, among them one with a zero byte, say what the
string is. -/
theorem CString.bytes_congr {m n : Memory} {s : CString} {k : Nat} (hs : n.sizes = m.sizes)
    (hread : ∀ i, i < k →
      n.read (s.object.slotAddress (i + 1)) = m.read (s.object.slotAddress (i + 1)))
    (hz : ∃ i, i < k ∧ ∃ w, m.read (s.object.slotAddress (i + 1)) = .ok w ∧ 0 ∈ w.bytes) :
    s.bytes n = s.bytes m := by
  cases htarget : m.target (s.object.slotAddress 1) with
  | error e =>
    simp only [bytes, Memory.readRest, Memory.target_congr hs, htarget, bind, Except.bind]
  | ok p =>
    obtain ⟨hstart, -⟩ := Memory.target_eq_ok_iff.1 htarget
    have haddress : ∀ i, s.object.slotAddress (i + 1) = m.address ⟨p.chunk, p.word + i⟩ := by
      intro i
      rw [Memory.address_add, ← hstart]
      simp only [HeapObject.slotAddress, wordSize]
      omega
    obtain ⟨ws, hws, hlen, hget⟩ := Memory.readRest_eq htarget
    obtain ⟨vs, hvs, hlen', hget'⟩ := Memory.readRest_eq ((Memory.target_congr hs _).trans htarget)
    have hsame : ∀ i, i < k → vs[i]? = ws[i]? := by
      intro i hi
      rw [hget, hget']
      apply Memory.get?_congr hs
      rw [← haddress]
      exact hread i hi
    have htake : vs.take k = ws.take k := by
      apply List.ext_getElem?
      intro i
      by_cases hi : i < k
      · rw [List.getElem?_take_of_lt hi, List.getElem?_take_of_lt hi, hsame i hi]
      · rw [List.getElem?_take_eq_none (Nat.not_lt.1 hi),
          List.getElem?_take_eq_none (Nat.not_lt.1 hi)]
    obtain ⟨i, hi, w, hw, hzero⟩ := hz
    by_cases hin : i < ws.length
    · have hword : ws[i]? = some w := by
        have hat : ws[i]? = some ws[i] := List.getElem?_eq_getElem hin
        have hplace : m.get? ⟨p.chunk, p.word + i⟩ = some ws[i] := (hget i).symm.trans hat
        have hv := Memory.read_address hplace
        rw [← haddress, hw] at hv
        rw [hat, Except.ok.inj hv]
      have hmem : 0 ∈ (ws.take k).flatMap Word.bytes := by
        apply List.mem_flatMap.2
        refine ⟨w, List.mem_of_getElem? (i := i) ?_, hzero⟩
        rw [List.getElem?_take_of_lt hi, hword]
      rw [← List.take_append_drop k ws] at hws
      rw [← List.take_append_drop k vs, htake] at hvs
      rw [bytes_of_readRest hws hmem, bytes_of_readRest hvs hmem]
    · -- The chunk ends within the slots.
      have hshort : ws.length ≤ k := by omega
      have hshort' : vs.length ≤ k := by rw [hlen', hs, ← hlen]; exact hshort
      rw [List.take_of_length_le hshort, List.take_of_length_le hshort'] at htake
      rw [bytes, bytes, hws, hvs, htake]

theorem CString.bytes_eq {a : Arena} {f : Contents} (h : a.Owns f) {s : CString} {w : Word}
    {ws : List Word} (hs : f s.object.address = some (w :: ws)) (hz : 0 ∈ ws.flatMap Word.bytes) :
    s.bytes a.memory = .ok ((ws.flatMap Word.bytes).takeWhile (· != 0)) :=
  bytes_of_holds (h.holds hs) (h.inChunk hs) hz

end TaggedHeap
