import TaggedHeap.DWord
import TaggedHeap.Object

/-!
# References

What a word refers to is said by its kind: an object, a double word, or nothing in memory.
-/

namespace TaggedHeap

namespace Word

/-- The word refers to nothing in memory. -/
def IsData (w : Word) : Prop := w.kind = .unboxed ∨ w.kind = .header

instance (w : Word) : Decidable w.IsData :=
  inferInstanceAs (Decidable (w.kind = .unboxed ∨ w.kind = .header))

/-- The address of the block that a word refers to. -/
def block? (w : Word) : Option Nat :=
  match w.kind with
  | .pointer => some w.toNat
  | .dwordPointer => some w.dwordAddress
  | _ => none

theorem IsData.block? {w : Word} (h : w.IsData) : w.block? = none := by
  rcases h with h | h <;> simp [Word.block?, h]

theorem IsData.ne_pointer {w : Word} (h : w.IsData) : w.kind ≠ .pointer := by
  rcases h with h | h <;> simp [h]

theorem IsData.ne_dwordPointer {w : Word} (h : w.IsData) : w.kind ≠ .dwordPointer := by
  rcases h with h | h <;> simp [h]

theorem block?_of_pointer {w : Word} (h : w.kind = .pointer) : w.block? = some w.toNat := by
  simp [block?, h]

theorem isPointer_iff (w : Word) : w.isPointer = true ↔ w.kind = .pointer := by
  simp only [isPointer, kind, beq_iff_eq]
  split
  case isTrue => simp; omega
  case isFalse => split <;> simp [*]; split <;> simp

theorem kind_ofNat {x : Nat} (hal : x % wordSize = 0) (hx : x < wordLimit) :
    (ofNat x).kind = .pointer := by
  simp only [wordSize] at hal
  rw [kind, toNat_ofNat_of_lt hx, if_neg (by omega), if_pos (by omega)]

section DWord

variable {x : Nat} (hal : x % dwordSize = 0) (hx : x < wordLimit)
include hal hx

theorem toNat_taggedDWord : (taggedDWord x).toNat = x + 2 := by
  apply toNat_ofNat_of_lt
  simp only [dwordSize, wordSize, wordLimit] at *
  omega

theorem kind_taggedDWord : (taggedDWord x).kind = .dwordPointer := by
  have ht := toNat_taggedDWord hal hx
  simp only [dwordSize, wordSize] at hal
  rw [kind, ht, if_neg (by omega), if_neg (by omega), if_neg (by omega)]

theorem dwordAddress_taggedDWord : (taggedDWord x).dwordAddress = x := by
  have ht := toNat_taggedDWord hal hx
  rw [dwordAddress, ht, if_pos]
  · exact Nat.add_sub_cancel x 2
  · simp only [dwordSize, wordSize] at hal
    omega

end DWord

end Word

namespace HeapObject

theorem ofWord_of_pointer {w : Word} (hp : w.kind = .pointer) : ofWord w = .ok ⟨w.toNat⟩ := by
  rw [ofWord, if_pos (w.isPointer_iff.2 hp)]

theorem ofWord_of_ne {w : Word} (hp : w.kind ≠ .pointer) :
    ofWord w = .error (.violated (.notAPointer w.toNat)) := by
  rw [ofWord, if_neg fun h => hp (w.isPointer_iff.1 h)]

end HeapObject

end TaggedHeap
