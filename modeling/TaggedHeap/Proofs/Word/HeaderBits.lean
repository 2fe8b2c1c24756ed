import Mathlib.Data.Nat.Bitwise
import TaggedHeap.Proofs.Object.Slots
import TaggedHeap.Proofs.Word.Tagging

/-!
# Header words as bits

A header is made of a uid and a field count, and it is read back from a word. Here its word is told
by its bits, with masks and shifts: field count, uid, mark and tag lie next to one another in the low
half of the word and do not overlap. All ways to make a header check the same ranges in the same
order, and the words that read as one are exactly those that are made.
-/

namespace TaggedHeap

namespace Header

/-- The places of the lowest bits of the uid and of the field count. -/
def uidShift : Nat := 4

def nfieldsShift : Nat := 24

/-- The bits of the field count, the uid, the mark and the tag. -/
def bits (uid nfields : Nat) (marked : Bool) : Nat :=
  nfields <<< nfieldsShift |||
    (uid <<< uidShift ||| ((if marked then markMask else 0) ||| Tag.header.bits))

/-- All bits below the limit but the mark. -/
def unmarkMask : Nat := limit - 1 - markMask

/-! ## Bits and units -/

/-- The parts of a header do not overlap, so they can be added up. -/
theorem bits_eq {uid nfields : Nat} (hu : uid < maxUids) (marked : Bool) :
    bits uid nfields marked =
      nfields * nfieldsUnit + uid * uidUnit + (if marked then markUnit else 0) + 6 := by
  have htag : (if marked then markMask else 0) ||| Tag.header.bits =
      (if marked then markUnit else 0) + 6 := by cases marked <;> rfl
  have hlow : (if marked then markUnit else 0) + 6 < 2 ^ uidShift := by
    cases marked <;> decide
  have hmid : uid <<< uidShift + ((if marked then markUnit else 0) + 6) < 2 ^ nfieldsShift := by
    rw [Nat.shiftLeft_eq]
    simp only [uidShift, nfieldsShift, maxUids] at *
    omega
  rw [bits, htag, ← Nat.shiftLeft_add_eq_or_of_lt hlow, ← Nat.shiftLeft_add_eq_or_of_lt hmid,
    Nat.shiftLeft_eq, Nat.shiftLeft_eq]
  simp only [uidShift, nfieldsShift, uidUnit, nfieldsUnit]
  omega

/-- The bits that a mask selects, moved to the lowest places. -/
theorem and_mask_shiftRight (n width shift : Nat) :
    (n &&& (2 ^ width - 1) <<< shift) >>> shift = n / 2 ^ shift % 2 ^ width := by
  rw [Nat.shiftRight_and_distrib, Nat.shiftLeft_shiftRight, Nat.and_two_pow_sub_one_eq_mod,
    Nat.shiftRight_eq_div_pow]

theorem toNat_toWord_eq_bits (h : Header) : h.toWord.toNat = bits h.uid h.nfields h.marked := by
  rw [toNat_toWord, bits_eq h.uid_lt]

theorem uid_ofLowBits (w : Word) : (ofLowBits w).uid = (w.toNat &&& uidMask) >>> uidShift :=
  (and_mask_shiftRight w.toNat 20 uidShift).symm

theorem nfields_ofLowBits (w : Word) :
    (ofLowBits w).nfields = (w.toNat &&& nfieldsMask) >>> nfieldsShift :=
  (and_mask_shiftRight w.toNat 8 nfieldsShift).symm

theorem marked_ofLowBits (w : Word) : (ofLowBits w).marked = (w.toNat &&& markMask != 0) := by
  rw [markMask, show markUnit = 2 ^ 3 from rfl, Nat.and_two_pow, Nat.testBit_eq_decide_div_mod_eq]
  simp only [ofLowBits]
  rcases Nat.mod_two_eq_zero_or_one (w.toNat / markUnit) with h | h <;> simp [h]

/-! ## Marks -/

theorem toNat_toWord_mark (h : Header) : h.mark.toWord.toNat = h.toWord.toNat ||| markMask := by
  have hmark : (if h.marked then markMask else 0) ||| Tag.header.bits ||| markMask =
      markMask ||| Tag.header.bits := by cases h.marked <;> rfl
  rw [toNat_toWord_eq_bits, toNat_toWord_eq_bits, bits, bits, Nat.or_assoc, Nat.or_assoc, hmark]
  rfl

/-- Taking the mark away changes nothing where it is not. -/
theorem and_unmarkMask {n : Nat} (hn : n < limit) (hclear : n.testBit 3 = false) :
    n &&& unmarkMask = n := by
  apply Nat.eq_of_testBit_eq
  intro i
  rw [Nat.testBit_and, show unmarkMask = 2 ^ 32 - (2 ^ 3 + 1) from rfl,
    Nat.testBit_two_pow_sub_succ (by decide)]
  cases hbit : n.testBit i with
  | false => rfl
  | true =>
    have hlt : i < 32 := (Nat.pow_lt_pow_iff_right (a := 2) (by decide)).1
      (Nat.lt_of_le_of_lt (Nat.ge_two_pow_of_testBit hbit) hn)
    have hne : 3 ≠ i := by
      rintro rfl
      rw [hclear] at hbit
      cases hbit
    rw [Nat.testBit_two_pow_of_ne hne]
    simpa using hlt

theorem testBit_toWord_unmark (h : Header) : h.unmark.toWord.toNat.testBit 3 = false := by
  simp only [toNat_toWord_eq_bits, bits, unmark, nfieldsShift, uidShift, Nat.testBit_or,
    Nat.testBit_shiftLeft]
  simp [show Tag.header.bits.testBit 3 = false from rfl]

theorem toNat_toWord_unmark (h : Header) :
    h.unmark.toWord.toNat = h.toWord.toNat &&& unmarkMask := by
  have hkeep := and_unmarkMask h.unmark.toNat_toWord_bounds.2 h.testBit_toWord_unmark
  rcases h with ⟨uid, nfields, marked, hu, hn⟩
  cases marked with
  | false => exact hkeep.symm
  | true =>
    have hmark := toNat_toWord_mark ⟨uid, nfields, false, hu, hn⟩
    rw [show Header.mk uid nfields true hu hn = (Header.mk uid nfields false hu hn).mark from rfl,
      hmark, Nat.and_or_distrib_right, show markMask &&& unmarkMask = 0 from rfl, Nat.or_zero]
    exact hkeep.symm

/-! ## Making headers -/

/-- What the fallible, the checked and the encoding way to make a header answer: the same header and
its word, or the first cause in the order of the checks, as a refusal and as violations. -/
inductive Built (uid nfields : Nat) :
    Except Fault Header → Except Fault Header → Except Fault Word → Prop where
  | uid : maxUids ≤ uid → Built uid nfields (.error (.refused (.uidOutOfRange uid)))
    (.error (.violated (.uidOutOfRange uid))) (.error (.violated (.uidOutOfRange uid)))
  | fields : uid < maxUids → maxFields < nfields →
    Built uid nfields (.error (.refused (.tooManyFields nfields)))
      (.error (.violated (.tooManyFields nfields))) (.error (.violated (.tooManyFields nfields)))
  | made (hu : uid < maxUids) (hn : nfields ≤ maxFields) :
    Built uid nfields (.ok ⟨uid, nfields, false, hu, hn⟩) (.ok ⟨uid, nfields, false, hu, hn⟩)
      (.ok (Header.mk uid nfields false hu hn).toWord)

theorem built (uid nfields : Nat) :
    Built uid nfields (ofFields? uid nfields) (ofFields uid nfields) (headerWord uid nfields) := by
  rw [headerWord, ofFields?, ofFields]
  by_cases hu : uid < maxUids
  case neg =>
    rw [dif_neg hu, dif_neg hu]
    exact .uid (Nat.not_lt.1 hu)
  by_cases hn : nfields ≤ maxFields
  case neg =>
    rw [dif_pos hu, dif_pos hu, dif_neg hn, dif_neg hn]
    exact .fields hu (Nat.not_le.1 hn)
  rw [dif_pos hu, dif_pos hu, dif_pos hn, dif_pos hn]
  exact .made hu hn

/-- A header is one that was made of its own uid and field count, with or without the mark. -/
theorem eq_mark_of_ofFields? (h : Header) :
    ∃ b, ofFields? h.uid h.nfields = .ok b ∧ h = if h.marked then b.mark else b := by
  rcases h with ⟨uid, nfields, marked, hu, hn⟩
  refine ⟨⟨uid, nfields, false, hu, hn⟩, ?_, ?_⟩
  · rw [ofFields?, dif_pos hu, dif_pos hn]
  · cases marked <;> rfl

/-! ## Reading headers -/

theorem and_seven (n : Nat) : n &&& 7 = n % 8 := Nat.and_two_pow_sub_one_eq_mod n 3

theorem exists_ofWord?_iff {w : Word} :
    (∃ h, ofWord? w = some h) ↔ w.toNat &&& 7 = Tag.header.bits ∧ w.toNat < limit := by
  rw [and_seven]
  constructor
  · rintro ⟨h, hh⟩
    obtain rfl := ofWord?_eq_some_iff.1 hh
    exact h.toNat_toWord_bounds
  · rintro ⟨ht, hl⟩
    exact ⟨ofLowBits w, ofWord?_eq_some_iff.2 (toWord_ofLowBits ht hl)⟩

theorem readWord?_eq_error_iff {w : Word} :
    readWord? w = .error (.refused (.notAHeader w.toNat)) ↔ ¬ ∃ h, ofWord? w = some h := by
  rw [readWord?]
  cases ofWord? w <;> simp

/-- What is read from a word that reads as a header. -/
structure Reads (w : Word) (h : Header) : Prop where
  uid_eq : h.uid = (w.toNat &&& uidMask) >>> uidShift
  nfields_eq : h.nfields = (w.toNat &&& nfieldsMask) >>> nfieldsShift
  marked_eq : h.marked = (w.toNat &&& markMask != 0)
  rebuilt : ∃ b, ofFields? h.uid h.nfields = .ok b ∧ w = (if h.marked then b.mark else b).toWord
  readWord?_eq : readWord? w = .ok h
  unchecked : ∀ (o : HeapObject) m, m.read o.address = .ok w →
    o.header m = .ok h ∧ o.uncheckedHeader m = .ok h

theorem reads_of_ofWord? {w : Word} {h : Header} (hh : ofWord? w = some h) : Reads w h := by
  have hw := ofWord?_eq_some_iff.1 hh
  have hlow : ofLowBits w = h := hw ▸ ofLowBits_toWord h
  constructor
  case uid_eq => rw [← uid_ofLowBits, hlow]
  case nfields_eq => rw [← nfields_ofLowBits, hlow]
  case marked_eq => rw [← marked_ofLowBits, hlow]
  case rebuilt =>
    obtain ⟨b, hb, he⟩ := h.eq_mark_of_ofFields?
    exact ⟨b, hb, by rw [← he, hw]⟩
  case readWord?_eq => rw [readWord?, hh]
  case unchecked =>
    intro o m hread
    refine ⟨HeapObject.header_of_read hread hh, ?_⟩
    rw [HeapObject.uncheckedHeader_of_read hread, hlow]

/-- All ways to make a header agree, and its word is its parts put next to one another. A mark is one
bit of the word and no part of uid, field count or layout. A word reads as a header if and only if it
has the tag and nothing above the low half, and then its masked bits are the uid, the field count and
the mark of the header that it was made of; read without a check it gives the same. So headers and
the words that read as one match each other. -/
theorem header_words_match_headers :
    (∀ uid nfields,
      Built uid nfields (ofFields? uid nfields) (ofFields uid nfields) (headerWord uid nfields)) ∧
    (∀ h : Header, h.toWord.toNat = bits h.uid h.nfields h.marked) ∧
    (∀ h : Header, (h.mark.uid = h.uid ∧ h.unmark.uid = h.uid) ∧
      (h.mark.nfields = h.nfields ∧ h.unmark.nfields = h.nfields) ∧
      (h.mark.layout = h.layout ∧ h.unmark.layout = h.layout) ∧
      h.mark.mark = h.mark ∧ h.unmark.unmark = h.unmark ∧
      (h.marked = false → h.mark.unmark = h) ∧
      h.mark.toWord.toNat = h.toWord.toNat ||| markMask ∧
      h.unmark.toWord.toNat = h.toWord.toNat &&& unmarkMask) ∧
    (∀ w : Word, ((∃ h, ofWord? w = some h) ↔
        w.toNat &&& 7 = Tag.header.bits ∧ w.toNat < limit) ∧
      (readWord? w = .error (.refused (.notAHeader w.toNat)) ↔ ¬ ∃ h, ofWord? w = some h) ∧
      ∀ h, ofWord? w = some h → Reads w h) ∧
    ∀ h : Header, ∃ w, ofWord? w = some h ∧ ∀ v, ofWord? v = some h → v = w := by
  refine ⟨built, toNat_toWord_eq_bits, ?_, ?_, ?_⟩
  · intro h
    refine ⟨⟨rfl, rfl⟩, ⟨rfl, rfl⟩, ⟨layout_congr rfl rfl, layout_congr rfl rfl⟩, rfl, rfl, ?_,
      h.toNat_toWord_mark, h.toNat_toWord_unmark⟩
    intro hm
    rcases h with ⟨uid, nfields, marked, hu, hn⟩
    obtain rfl : marked = false := hm
    rfl
  · intro w
    exact ⟨exists_ofWord?_iff, readWord?_eq_error_iff, fun h => reads_of_ofWord?⟩
  · intro h
    refine ⟨h.toWord, ofWord?_toWord h, fun v hv => ?_⟩
    exact (ofWord?_eq_some_iff.1 hv).symm

/-- The marked header of a constructor with three fields. -/
theorem header_words_match_headers_marked :
    ofWord? (.ofNat 0x0300008e) = some ⟨8, 3, true, by decide, by decide⟩ ∧
      Reads (.ofNat 0x0300008e) ⟨8, 3, true, by decide, by decide⟩ := by
  have hread : ofWord? (.ofNat 0x0300008e) = some ⟨8, 3, true, by decide, by decide⟩ := by
    decide +kernel
  obtain ⟨-, -, -, hwords, -⟩ := header_words_match_headers
  exact ⟨hread, (hwords _).2.2 _ hread⟩

end Header

end TaggedHeap
