import TaggedHeap.Proofs.Object.References
import TaggedHeap.Word.Decoding

/-!
# Tags as a disjoint union

The kind of a word is a remainder of its value, so the kinds share out all words among them, and the
rest of the value is what the word was made of. Of the words with the tag of headers, headers are
those with a zero high half. The words that each encoder makes lie in the part of its own kind, and
from every word what it decodes to leads back to the same word.
-/

namespace TaggedHeap

namespace Word

/-! ## Kinds as remainders -/

theorem kind_eq_pointer_iff {w : Word} : w.kind = .pointer ↔ w.toNat % 4 = 0 := by
  rw [← isPointer_iff, isPointer, beq_iff_eq]

theorem kind_eq_unboxed_iff {w : Word} : w.kind = .unboxed ↔ w.toNat % 2 = 1 := by
  simp only [kind]
  split
  case isTrue h => simp [h]
  case isFalse h =>
    simp only [h, iff_false]
    split
    case isTrue => simp
    case isFalse => split <;> simp

theorem kind_eq_header_iff {w : Word} : w.kind = .header ↔ w.toNat % 8 = 6 := by
  simp only [kind]
  split
  case isTrue => simp; omega
  case isFalse =>
    split
    case isTrue => simp; omega
    case isFalse => split <;> simp [*]

theorem kind_eq_dwordPointer_iff {w : Word} : w.kind = .dwordPointer ↔ w.toNat % 8 = 2 := by
  simp only [kind]
  split
  case isTrue => simp; omega
  case isFalse =>
    split
    case isTrue => simp; omega
    case isFalse =>
      split
      case isTrue => simp; omega
      case isFalse => simp; omega

theorem dwordAddress_of_kind {w : Word} (h : w.kind = .dwordPointer) :
    w.toNat = w.dwordAddress + 2 ∧ w.dwordAddress % 8 = 0 := by
  rw [kind_eq_dwordPointer_iff] at h
  rw [dwordAddress, if_pos (by omega)]
  omega

theorem eq_unboxed_of_kind {w : Word} (h : w.kind = .unboxed) : w.toNat = 2 * w.payload + 1 := by
  rw [kind_eq_unboxed_iff] at h
  simp only [payload]
  omega

theorem toNat_unboxed (n : Nat) : (unboxed n).toNat = 2 * (n % (maxUnboxed + 1)) + 1 := by
  simp only [unboxed, toNat_ofNat, maxUnboxed, wordLimit]
  omega

end Word

namespace Header

/-- The word of a header has the tag of headers and a zero high half. -/
theorem toNat_toWord_bounds (h : Header) :
    h.toWord.toNat % 8 = 6 ∧ h.toWord.toNat < limit := by
  have hu := h.uid_lt
  have hn := h.nfields_le
  rw [toNat_toWord]
  simp only [maxUids, maxFields, nfieldsUnit, uidUnit, markUnit, limit] at *
  split <;> omega

theorem kind_toWord (h : Header) : h.toWord.kind = .header :=
  Word.kind_eq_header_iff.2 h.toNat_toWord_bounds.1

/-- The fields of a header take up all the bits of its word but those of the tag. -/
theorem toWord_ofLowBits {w : Word} (ht : w.toNat % 8 = 6) (hl : w.toNat < limit) :
    (ofLowBits w).toWord = w := by
  rw [← Word.toNat_inj, toNat_toWord]
  simp only [ofLowBits, beq_iff_eq, nfieldsUnit, uidUnit, markUnit, maxUids, maxFields, limit] at *
  split <;> omega

/-- Headers and the words that read as one match each other. -/
theorem ofWord?_eq_some_iff {w : Word} {h : Header} : ofWord? w = some h ↔ h.toWord = w := by
  constructor
  · intro he
    simp only [ofWord?, Word.isHeader, beq_iff_eq] at he
    split at he
    case isFalse => cases he
    case isTrue hw =>
      obtain rfl := Option.some.inj he
      exact toWord_ofLowBits hw.1 hw.2
  · rintro rfl
    exact ofWord?_toWord h

theorem ofWord?_eq_none_iff {w : Word} (ht : w.toNat % 8 = 6) :
    ofWord? w = none ↔ limit ≤ w.toNat := by
  simp [ofWord?, Word.isHeader, ht]

end Header

/-! ## Decoding and what it leads back to -/

namespace Word

/-- What a word decodes to, told by its value alone. -/
inductive DecodesTo (w : Word) : Decoded → Prop where
  | pointer : w.toNat % 4 = 0 → DecodesTo w (.pointer w.toNat)
  | unboxed {n : Nat} : w.toNat = 2 * n + 1 → DecodesTo w (.unboxed n)
  | dwordPointer {a : Nat} : a % 8 = 0 → w.toNat = a + 2 → DecodesTo w (.dwordPointer a)
  | header {h : Header} : h.toWord = w → w.toNat < Header.limit → DecodesTo w (.header h)
  | corrupt : w.toNat % 8 = 6 → Header.limit ≤ w.toNat → DecodesTo w (.corrupt w)

theorem decodesTo_decode (w : Word) : w.DecodesTo w.decode := by
  cases hk : w.kind with
  | pointer =>
    rw [decode, hk]
    exact .pointer (kind_eq_pointer_iff.1 hk)
  | unboxed =>
    rw [decode, hk]
    exact .unboxed (eq_unboxed_of_kind hk)
  | dwordPointer =>
    obtain ⟨hw, ha⟩ := dwordAddress_of_kind hk
    rw [decode, hk]
    exact .dwordPointer ha hw
  | header =>
    have ht := kind_eq_header_iff.1 hk
    simp only [decode, hk]
    cases ho : Header.ofWord? w with
    | some h =>
      obtain rfl := Header.ofWord?_eq_some_iff.1 ho
      exact .header rfl h.toNat_toWord_bounds.2
    | none => exact .corrupt ht ((Header.ofWord?_eq_none_iff ht).1 ho)

/-- The value of a word leaves no choice of what it decodes to. -/
theorem DecodesTo.decode_eq {w : Word} {d : Decoded} (h : w.DecodesTo d) : w.decode = d := by
  cases h with
  | pointer ht => rw [decode, kind_eq_pointer_iff.2 ht]
  | @unboxed n hw =>
    have hn : w.payload = n := by
      simp only [payload]
      omega
    rw [decode, kind_eq_unboxed_iff.2 (by omega), hn]
  | @dwordPointer a ha hw =>
    have hd : w.dwordAddress = a := by
      rw [dwordAddress, if_pos (by omega)]
      omega
    rw [decode, kind_eq_dwordPointer_iff.2 (by omega), hd]
  | @header h hw =>
    -- The header's word stays behind the equation, or checking the proof computes with it.
    have hk : w.kind = .header := hw ▸ h.kind_toWord
    simp only [decode, hk, Header.ofWord?_eq_some_iff.2 hw]
  | corrupt ht hl =>
    simp only [decode, kind_eq_header_iff.2 ht, (Header.ofWord?_eq_none_iff ht).2 hl]

theorem decode_eq_iff {w : Word} {d : Decoded} : w.decode = d ↔ w.DecodesTo d := by
  constructor
  · rintro rfl
    exact w.decodesTo_decode
  · exact DecodesTo.decode_eq

theorem DecodesTo.encode_eq {w : Word} {d : Decoded} (h : w.DecodesTo d) : d.encode = w := by
  cases h with
  | pointer => exact ofNat_toNat w
  | @unboxed n hw => rw [Decoded.encode, Word.unboxed, ← hw, ofNat_toNat]
  | @dwordPointer a _ hw => rw [Decoded.encode, taggedDWord, ← hw, ofNat_toNat]
  | header hw => exact hw
  | corrupt => rfl

/-! ## What the encoders make -/

theorem pointerTo_eq_ok_iff {a : Nat} {w : Word} :
    pointerTo a = .ok w ↔ a % wordSize = 0 ∧ ofNat a = w := by
  by_cases h : a % wordSize = 0 <;> simp [pointerTo, h]

theorem dwordPointerTo_eq_ok_iff {a : Nat} {w : Word} :
    dwordPointerTo a = .ok w ↔ a % dwordSize = 0 ∧ taggedDWord a = w := by
  by_cases h : a % dwordSize = 0 <;> simp [dwordPointerTo, h]

theorem exists_pointerTo_iff {a : Nat} : (∃ w, pointerTo a = .ok w) ↔ wordSize ∣ a := by
  simp [pointerTo_eq_ok_iff, Nat.dvd_iff_mod_eq_zero]

theorem exists_dwordPointerTo_iff {a : Nat} : (∃ w, dwordPointerTo a = .ok w) ↔ dwordSize ∣ a := by
  simp [dwordPointerTo_eq_ok_iff, Nat.dvd_iff_mod_eq_zero]

/-- Refusing a double word pointer and stopping at it are two answers to the same addresses. -/
theorem dwordPointerTo?_eq_ok_iff {a : Nat} {w : Word} :
    dwordPointerTo? a = .ok w ↔ dwordPointerTo a = .ok w := by
  by_cases h : a % dwordSize = 0 <;> simp [dwordPointerTo?, dwordPointerTo, h]

theorem dwordPointerTo?_eq_error_iff {a : Nat} :
    dwordPointerTo? a = .error (.refused (.misalignedDWord a)) ↔
      dwordPointerTo a = .error (.violated (.misalignedDWord a)) := by
  by_cases h : a % dwordSize = 0 <;> simp [dwordPointerTo?, dwordPointerTo, h]

theorem decode_pointerTo {a : Nat} {w : Word} (ha : a < wordLimit) (h : pointerTo a = .ok w) :
    w.decode = .pointer a := by
  obtain ⟨hal, rfl⟩ := pointerTo_eq_ok_iff.1 h
  rw [decode, kind_ofNat hal ha, toNat_ofNat_of_lt ha]

theorem decode_dwordPointerTo {a : Nat} {w : Word} (ha : a < wordLimit)
    (h : dwordPointerTo a = .ok w) : w.decode = .dwordPointer a := by
  obtain ⟨hal, rfl⟩ := dwordPointerTo_eq_ok_iff.1 h
  rw [decode, kind_taggedDWord hal ha, dwordAddress_taggedDWord hal ha]

theorem decode_unboxed (n : Nat) : (unboxed n).decode = .unboxed (n % (maxUnboxed + 1)) :=
  decode_eq_iff.2 (.unboxed (toNat_unboxed n))

theorem headerWord_eq_ok_iff {uid nfields : Nat} {w : Word} :
    headerWord uid nfields = .ok w ↔
      ∃ h : Header, h.uid = uid ∧ h.nfields = nfields ∧ h.marked = false ∧ h.toWord = w := by
  constructor
  · intro hw
    unfold headerWord Header.ofFields at hw
    split at hw
    case isFalse => cases hw
    case isTrue hu =>
      split at hw
      case isFalse => cases hw
      case isTrue hn => exact ⟨⟨uid, nfields, false, hu, hn⟩, rfl, rfl, rfl, Except.ok.inj hw⟩
  · rintro ⟨⟨uid, nfields, marked, hu, hn⟩, rfl, rfl, rfl, rfl⟩
    rw [headerWord, Header.ofFields, dif_pos hu, dif_pos hn]
    rfl

theorem exists_headerWord_iff {uid nfields : Nat} :
    (∃ w, headerWord uid nfields = .ok w) ↔ uid < maxUids ∧ nfields ≤ maxFields := by
  simp only [headerWord_eq_ok_iff]
  constructor
  · rintro ⟨w, h, rfl, rfl, -⟩
    exact ⟨h.uid_lt, h.nfields_le⟩
  · rintro ⟨hu, hn⟩
    exact ⟨_, ⟨uid, nfields, false, hu, hn⟩, rfl, rfl, rfl, rfl⟩

theorem decode_headerWord {uid nfields : Nat} {w : Word} (hw : headerWord uid nfields = .ok w) :
    ∃ h : Header, w.decode = .header h ∧ h.uid = uid ∧ h.nfields = nfields ∧ h.marked = false := by
  obtain ⟨h, hu, hn, hm, hw⟩ := headerWord_eq_ok_iff.1 hw
  exact ⟨h, decode_eq_iff.2 (.header hw (hw ▸ h.toNat_toWord_bounds.2)), hu, hn, hm⟩

/-- The words that the encoder of each kind makes. -/
inductive Encodes : Kind → Word → Prop where
  | pointer (a : UInt64) {w : Word} : pointerTo a.toNat = .ok w → Encodes .pointer w
  | unboxed (n : Nat) : Encodes .unboxed (.unboxed n)
  | dwordPointer (a : UInt64) {w : Word} : dwordPointerTo a.toNat = .ok w → Encodes .dwordPointer w
  | header (uid nfields : Nat) {w : Word} : headerWord uid nfields = .ok w → Encodes .header w

theorem Encodes.kind_eq {k : Kind} {w : Word} (h : Encodes k w) : w.kind = k := by
  cases h with
  | pointer a hw =>
    obtain ⟨hal, rfl⟩ := pointerTo_eq_ok_iff.1 hw
    exact kind_ofNat hal a.toNat_lt
  | unboxed n =>
    rw [kind_eq_unboxed_iff, toNat_unboxed]
    omega
  | dwordPointer a hw =>
    obtain ⟨hal, rfl⟩ := dwordPointerTo_eq_ok_iff.1 hw
    exact kind_taggedDWord hal a.toNat_lt
  | header uid nfields hw =>
    obtain ⟨h, -, -, -, rfl⟩ := headerWord_eq_ok_iff.1 hw
    exact h.kind_toWord

/-- Each encoder is undone by decoding on all that it takes, the encoders make words of different
kinds, and every word is rebuilt from the one thing that it decodes to. -/
theorem tags_disjoint_union :
    (∀ a : UInt64, ((∃ w, pointerTo a.toNat = .ok w) ↔ wordSize ∣ a.toNat) ∧
      ∀ w, pointerTo a.toNat = .ok w → w.decode = .pointer a.toNat) ∧
    (∀ n, (unboxed n).decode = .unboxed (n % (maxUnboxed + 1))) ∧
    (∀ a : UInt64, ((∃ w, dwordPointerTo a.toNat = .ok w) ↔ dwordSize ∣ a.toNat) ∧
      (∀ w, dwordPointerTo a.toNat = .ok w → w.decode = .dwordPointer a.toNat) ∧
      (∀ w, dwordPointerTo? a.toNat = .ok w ↔ dwordPointerTo a.toNat = .ok w) ∧
      (dwordPointerTo? a.toNat = .error (.refused (.misalignedDWord a.toNat)) ↔
        dwordPointerTo a.toNat = .error (.violated (.misalignedDWord a.toNat)))) ∧
    (∀ uid nfields,
      ((∃ w, headerWord uid nfields = .ok w) ↔ uid < maxUids ∧ nfields ≤ maxFields) ∧
      ∀ w, headerWord uid nfields = .ok w → ∃ h : Header,
        w.decode = .header h ∧ h.uid = uid ∧ h.nfields = nfields ∧ h.marked = false) ∧
    (∀ k w, Encodes k w → w.kind = k) ∧
    (∀ k l w, k ≠ l → ¬(Encodes k w ∧ Encodes l w)) ∧
    (∀ (w : Word) (d : Decoded), w.decode = d ↔ w.DecodesTo d) ∧
    ∀ w : Word, w.decode.encode = w := by
  refine ⟨fun a => ⟨exists_pointerTo_iff, fun w => decode_pointerTo a.toNat_lt⟩, decode_unboxed,
    fun a => ⟨exists_dwordPointerTo_iff, fun w => decode_dwordPointerTo a.toNat_lt,
      fun w => dwordPointerTo?_eq_ok_iff, dwordPointerTo?_eq_error_iff⟩,
    fun uid nfields => ⟨exists_headerWord_iff, fun w => decode_headerWord⟩,
    fun k w => Encodes.kind_eq, ?_, fun w d => decode_eq_iff,
    fun w => w.decodesTo_decode.encode_eq⟩
  rintro k l w hne ⟨hk, hl⟩
  exact hne (hk.kind_eq.symm.trans hl.kind_eq)

end Word

end TaggedHeap
