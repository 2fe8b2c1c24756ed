import Mathlib.Data.Int.ModEq
import TaggedHeap.Proofs.Word.Tagging

/-!
# Numbers in words

A number is shifted to the left by one place and a one is put into the lowest bit, so its top bit is
lost: the words that hold numbers are the residues of `2 ^ 63`, whichever numbers they were made of.
A logical shift to the right reads the residue that is not negative, an arithmetic one the residue
around zero. Each reading keeps an order of the words, the unsigned or the signed one, and it does
not matter in which of them numbers are added or multiplied.
-/

namespace TaggedHeap.Word

/-! ## Shifts -/

/-- The bit that the shift leaves free holds the tag. -/
theorem raw_unboxed (n : UInt64) : (unboxed n.toNat).raw = n <<< 1 ||| 1 := by
  have hshift : n.toNat <<< 1 % 2 ^ 64 = (n.toNat % 2 ^ 63) <<< 1 := by
    rw [Nat.shiftLeft_eq, Nat.shiftLeft_eq]
    omega
  apply UInt64.toNat_inj.1
  rw [UInt64.toNat_or, UInt64.toNat_shiftLeft]
  change (unboxed n.toNat).toNat = n.toNat <<< 1 % 2 ^ 64 ||| 1
  rw [hshift, ← Nat.shiftLeft_add_eq_or_of_lt (by decide), Nat.shiftLeft_eq, toNat_unboxed]
  simp only [maxUnboxed]
  omega

theorem payload_eq_shiftRight (w : Word) : w.payload = (w.raw >>> 1).toNat := by
  rw [UInt64.toNat_shiftRight, Nat.shiftRight_eq_div_pow]
  rfl

theorem toInt_raw (w : Word) : w.raw.toInt64.toInt = w.toInt :=
  BitVec.toInt_eq_toNat_cond w.raw.toBitVec

/-- The arithmetic shift keeps the sign. -/
theorem signedPayload_eq_shiftRight (w : Word) :
    w.signedPayload = (w.raw.toInt64 >>> 1).toInt := by
  have hshift : (w.raw.toInt64 >>> 1).toInt = w.raw.toInt64.toInt >>> (1 : Nat) :=
    BitVec.toInt_sshiftRight
  rw [hshift, toInt_raw, Int.shiftRight_eq_div_pow]
  rfl

/-- The bits of a signed number, read as an unsigned one. -/
theorem toNat_toUInt64 (n : Int64) : (n.toUInt64.toNat : Int) = n.toInt % wordLimit := by
  have h := BitVec.toInt_eq_toNat_cond n.toBitVec
  have hlt := n.toBitVec.isLt
  change (n.toBitVec.toNat : Int) = n.toBitVec.toInt % wordLimit
  simp only [wordLimit]
  split at h <;> omega

/-! ## Residues -/

theorem payload_unboxed (n : Nat) : (unboxed n).payload = n % 2 ^ 63 := by
  rw [payload, toNat_unboxed]
  simp only [maxUnboxed]
  omega

theorem payload_unboxed_eq_iff {n : Nat} : (unboxed n).payload = n ↔ n ≤ maxUnboxed := by
  rw [payload_unboxed]
  simp only [maxUnboxed]
  omega

theorem toNat_unboxedSigned (n : Int) :
    ((unboxedSigned n).toNat : Int) = (2 * n + 1) % wordLimit := by
  have hlt : ((2 * n + 1) % wordLimit).toNat < wordLimit := by
    simp only [wordLimit]
    omega
  rw [unboxedSigned, toNat_ofNat_of_lt hlt]
  simp only [wordLimit]
  omega

/-- Only the bits of a number count, not how they are read. -/
theorem unboxedSigned_eq_unboxed {n : Int} {k : Nat} (h : (k : Int) ≡ n [ZMOD 2 ^ 63]) :
    unboxedSigned n = unboxed k := by
  have hs := toNat_unboxedSigned n
  have hu := toNat_unboxed k
  rw [Int.ModEq] at h
  rw [← toNat_inj]
  simp only [maxUnboxed, wordLimit] at *
  omega

theorem signedPayload_unboxedSigned_eq_iff {n m : Int} :
    (unboxedSigned n).signedPayload = m ↔
      -2 ^ 62 ≤ m ∧ m < 2 ^ 62 ∧ m ≡ n [ZMOD 2 ^ 63] := by
  have h := toNat_unboxedSigned n
  have hlt := (unboxedSigned n).toNat_lt
  simp only [signedPayload, toInt, Int.ModEq, wordLimit] at *
  split <;> omega

theorem signedPayload_unboxedSigned_eq_self_iff {n : Int} :
    (unboxedSigned n).signedPayload = n ↔ minUnboxedSigned ≤ n ∧ n ≤ maxUnboxedSigned := by
  rw [signedPayload_unboxedSigned_eq_iff, and_iff_left (Int.ModEq.refl n)]
  simp only [minUnboxedSigned, maxUnboxedSigned]
  omega

/-! ## Words that hold numbers -/

/-- The two readings of a word differ by a multiple of `2 ^ 63`. -/
theorem payload_modEq_signedPayload (w : Word) :
    (w.payload : Int) ≡ w.signedPayload [ZMOD 2 ^ 63] := by
  have hlt := w.toNat_lt
  simp only [payload, signedPayload, toInt, Int.ModEq, wordLimit] at *
  split <;> omega

section Odd

variable {v w : Word} (hv : v.kind = .unboxed) (hw : w.kind = .unboxed)

include hw in
theorem unboxed_payload : unboxed w.payload = w := by
  rw [unboxed, ← eq_unboxed_of_kind hw, ofNat_toNat]

include hw in
theorem unboxedSigned_signedPayload : unboxedSigned w.signedPayload = w := by
  rw [unboxedSigned_eq_unboxed (payload_modEq_signedPayload w), unboxed_payload hw]

include hv hw in
theorem payload_lt_iff : v.payload < w.payload ↔ v.raw < w.raw := by
  have hv := eq_unboxed_of_kind hv
  have hw := eq_unboxed_of_kind hw
  rw [UInt64.lt_iff_toNat_lt]
  change v.payload < w.payload ↔ v.toNat < w.toNat
  omega

include hv hw in
theorem signedPayload_lt_iff :
    v.signedPayload < w.signedPayload ↔ v.raw.toInt64 < w.raw.toInt64 := by
  rw [kind_eq_unboxed_iff] at hv hw
  rw [Int64.lt_iff_toInt_lt, toInt_raw, toInt_raw]
  simp only [signedPayload, toInt, wordLimit]
  split <;> split <;> omega

end Odd

/-- Words of numbers are residues of `2 ^ 63`. Numbers are put into words and taken out of them by
shifts; what is taken out is the residue that is not negative or the one around zero, so a number
comes back unchanged if and only if it is one of these. Every odd word is made of what is read from
it, both readings keep the order of the words, and both lead to the same sums and products. -/
theorem numbers_are_residues :
    (∀ n : UInt64, (unboxed n.toNat).raw = n <<< 1 ||| 1 ∧
      (unboxed n.toNat).payload = n.toNat % 2 ^ 63 ∧
      ((unboxed n.toNat).payload = n.toNat ↔ n.toNat ≤ maxUnboxed)) ∧
    (∀ n : Int64, unboxedSigned n.toInt = unboxed n.toUInt64.toNat ∧
      (∀ m, (unboxedSigned n.toInt).signedPayload = m ↔
        -2 ^ 62 ≤ m ∧ m < 2 ^ 62 ∧ m ≡ n.toInt [ZMOD 2 ^ 63]) ∧
      ((unboxedSigned n.toInt).signedPayload = n.toInt ↔
        minUnboxedSigned ≤ n.toInt ∧ n.toInt ≤ maxUnboxedSigned)) ∧
    (∀ w : Word, w.payload = (w.raw >>> 1).toNat ∧
      w.signedPayload = (w.raw.toInt64 >>> 1).toInt) ∧
    (∀ w : Word, w.kind = .unboxed →
      unboxed w.payload = w ∧ unboxedSigned w.signedPayload = w) ∧
    ∀ v w : Word, v.kind = .unboxed → w.kind = .unboxed →
      (v.payload < w.payload ↔ v.raw < w.raw) ∧
      (v.signedPayload < w.signedPayload ↔ v.raw.toInt64 < w.raw.toInt64) ∧
      unboxed (v.payload + w.payload) = unboxedSigned (v.signedPayload + w.signedPayload) ∧
      unboxed (v.payload * w.payload) = unboxedSigned (v.signedPayload * w.signedPayload) := by
  refine ⟨fun n => ⟨raw_unboxed n, payload_unboxed _, payload_unboxed_eq_iff⟩,
    fun n => ⟨?_, fun m => signedPayload_unboxedSigned_eq_iff,
      signedPayload_unboxedSigned_eq_self_iff⟩,
    fun w => ⟨payload_eq_shiftRight w, signedPayload_eq_shiftRight w⟩,
    fun w hw => ⟨unboxed_payload hw, unboxedSigned_signedPayload hw⟩,
    fun v w hv hw => ⟨payload_lt_iff hv hw, signedPayload_lt_iff hv hw, ?_, ?_⟩⟩
  · apply unboxedSigned_eq_unboxed
    rw [toNat_toUInt64]
    exact (Int.mod_modEq _ _).of_dvd (by decide)
  · apply Eq.symm
    apply unboxedSigned_eq_unboxed
    push_cast
    exact (payload_modEq_signedPayload v).add (payload_modEq_signedPayload w)
  · apply Eq.symm
    apply unboxedSigned_eq_unboxed
    push_cast
    exact (payload_modEq_signedPayload v).mul (payload_modEq_signedPayload w)

/-- The word with all bits set holds the largest number and minus one. -/
theorem numbers_are_residues_all_ones :
    (ofNat 0xffffffffffffffff).kind = .unboxed ∧ (ofNat 3).kind = .unboxed ∧
      unboxed (ofNat 0xffffffffffffffff).payload = ofNat 0xffffffffffffffff ∧
      unboxedSigned (ofNat 0xffffffffffffffff).signedPayload = ofNat 0xffffffffffffffff ∧
      (ofNat 3).payload < (ofNat 0xffffffffffffffff).payload ∧
      (ofNat 0xffffffffffffffff).signedPayload < (ofNat 3).signedPayload := by
  have hones : (ofNat 0xffffffffffffffff).kind = .unboxed := by decide +kernel
  have hthree : (ofNat 3).kind = .unboxed := by decide +kernel
  obtain ⟨-, -, -, hodd, hpairs⟩ := numbers_are_residues
  obtain ⟨hpayload, -⟩ := hpairs _ _ hthree hones
  obtain ⟨-, hsigned, -⟩ := hpairs _ _ hones hthree
  exact ⟨hones, hthree, (hodd _ hones).1, (hodd _ hones).2, hpayload.2 (by decide +kernel),
    hsigned.2 (by decide +kernel)⟩

end TaggedHeap.Word
