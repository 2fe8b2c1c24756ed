import TaggedHeap.Word

/-!
# Double words

A value too wide for a word is two words, the low half first.
-/

namespace TaggedHeap

structure DWord where
  lo : Word
  hi : Word
deriving DecidableEq, Repr, Inhabited

namespace DWord

/-- The halves of a value below the square of the word limit. -/
def ofNat (n : Nat) : DWord := ⟨.ofNat n, .ofNat (n / wordLimit)⟩

def toNat (d : DWord) : Nat := d.hi.toNat * wordLimit + d.lo.toNat

theorem toNat_ofNat {n : Nat} (h : n < wordLimit * wordLimit) : (ofNat n).toNat = n := by
  have hq : n / wordLimit < wordLimit := Nat.div_lt_of_lt_mul h
  simp only [toNat, ofNat, Word.toNat_ofNat, Nat.mod_eq_of_lt hq]
  rw [Nat.mul_comm]
  exact Nat.div_add_mod n wordLimit

theorem ofNat_toNat (d : DWord) : ofNat d.toNat = d := by
  have hl := d.lo.toNat_lt
  have hd : d.toNat / wordLimit = d.hi.toNat := by
    rw [toNat, Nat.mul_comm, Nat.mul_add_div (by decide), Nat.div_eq_of_lt hl, Nat.add_zero]
  have hm : Word.ofNat d.toNat = d.lo := by
    rw [← Word.toNat_inj, Word.toNat_ofNat, toNat, Nat.mul_add_mod_of_lt hl]
  simp [ofNat, hd, hm]

/-- The structural form, with both halves in decimal. -/
def debug (d : DWord) : String :=
  "DWord \x7b lo: " ++ Numeral.decimal d.lo.toNat ++ ", hi: " ++ Numeral.decimal d.hi.toNat ++
    " \x7d"

end DWord

end TaggedHeap
