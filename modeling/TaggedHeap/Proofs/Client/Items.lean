import TaggedHeap.Proofs.Client.Program
import TaggedHeap.Proofs.Heap.Relocation

/-!
# What the roots hold

A client sees of the heap only what its roots hold, one item for each root. Objects and double words
of different roots are different blocks, so items change one at a time; where the blocks lie is no
part of the items, and a collection changes nothing else.
-/

namespace TaggedHeap

namespace Client

/-- What a root holds, apart from where it lies. -/
inductive Item where
  | data (w : Word)
  | object (hd : Header) (ws : List Word)
  | dword (d : DWord)

/-- The word stands for the item over these blocks. -/
def Item.Shown (f : Contents) (w : Word) : Item → Prop
  | .data v => w = v ∧ w.IsData
  | .object hd ws =>
    w.kind = .pointer ∧ f w.toNat = some (hd.toWord :: ws) ∧ hd.Fits ws ∧
      (hd.uid = cstringUid → 0 ∈ ws.flatMap Word.bytes)
  | .dword d =>
    ∃ x, w = .taggedDWord x ∧ w.kind = .dwordPointer ∧ w.dwordAddress = x ∧ x % dwordSize = 0 ∧
      f x = some [d.lo, d.hi]

theorem Item.Shown.congr {f g : Contents} {w : Word} {item : Item} (h : item.Shown f w)
    (hf : ∀ x, w.block? = some x → g x = f x) : item.Shown g w := by
  cases item with
  | data v => exact h
  | object hd ws =>
    obtain ⟨hp, hw, hfit, hs⟩ := h
    exact ⟨hp, (hf _ (Word.block?_of_pointer hp)).trans hw, hfit, hs⟩
  | dword d =>
    obtain ⟨x, rfl, hk, hx, hal, hw⟩ := h
    exact ⟨x, rfl, hk, hx, hal, (hf x (by simp [Word.block?, hk, hx])).trans hw⟩

theorem Item.Shown.ne_none {f : Contents} {w : Word} {item : Item} (h : item.Shown f w) {x : Nat}
    (hx : w.block? = some x) : f x ≠ none := by
  cases item with
  | data v => simp [h.2.block?] at hx
  | object hd ws =>
    obtain ⟨hp, hw, -⟩ := h
    obtain rfl := Option.some.inj ((Word.block?_of_pointer hp).symm.trans hx)
    simp [hw]
  | dword d =>
    obtain ⟨y, rfl, hk, hy, -, hw⟩ := h
    obtain rfl : y = x := by simpa [Word.block?, hk, hy] using hx
    simp [hw]

theorem Item.Shown.of_pointer {f : Contents} {w : Word} {item : Item} (h : item.Shown f w)
    (hp : w.kind = .pointer) :
    ∃ hd ws, item = .object hd ws ∧ f w.toNat = some (hd.toWord :: ws) ∧ hd.Fits ws ∧
      (hd.uid = cstringUid → 0 ∈ ws.flatMap Word.bytes) := by
  cases item with
  | data v => exact absurd hp h.2.ne_pointer
  | object hd ws => exact ⟨hd, ws, rfl, h.2⟩
  | dword d =>
    obtain ⟨x, -, hk, -⟩ := h
    rw [hp] at hk
    cases hk

/-- The roots hold the items. -/
structure Represents (h : Heap) (items : List Item) (f : Contents) : Prop where
  unlimited : h.arena.config.limit = none
  owns : h.arena.Owns f
  length_eq : h.roots.length = items.length
  shown : ∀ {i : Nat} {w : Word} {item : Item}, h.roots[i]? = some w → items[i]? = some item →
    item.Shown f w
  apart : ∀ {i j : Nat} {v w : Word} {x : Nat}, h.roots[i]? = some v → h.roots[j]? = some w →
    v.block? = some x → w.block? = some x → i = j

namespace Represents

variable {h : Heap} {items : List Item} {f : Contents}

theorem root (h' : Represents h items f) {i : Nat} {item : Item} (hi : items[i]? = some item) :
    ∃ w, h.roots[i]? = some w ∧ item.Shown f w := by
  have hlt := (List.getElem?_eq_some_iff.1 hi).1
  rw [← h'.length_eq] at hlt
  exact ⟨h.roots[i], List.getElem?_eq_getElem hlt, h'.shown (List.getElem?_eq_getElem hlt) hi⟩

theorem item (h' : Represents h items f) {i : Nat} {w : Word} (hi : h.roots[i]? = some w) :
    ∃ item, items[i]? = some item ∧ Item.Shown f w item := by
  have hlt := (List.getElem?_eq_some_iff.1 hi).1
  rw [h'.length_eq] at hlt
  exact ⟨items[i], List.getElem?_eq_getElem hlt, h'.shown hi (List.getElem?_eq_getElem hlt)⟩

theorem movable (h' : Represents h items f) {w : Word} (hw : w ∈ h.roots)
    (hp : w.kind = .pointer) : f.Movable w.toNat := by
  obtain ⟨i, hi⟩ := List.getElem?_of_mem hw
  obtain ⟨item, -, hs⟩ := h'.item hi
  obtain ⟨hd, ws, rfl, hf, hfit, -⟩ := hs.of_pointer hp
  exact ⟨hd, ws, hf, hfit⟩

theorem rooted (h' : Represents h items f) : Rooted f h.roots := by
  intro w hw hp
  obtain ⟨hd, ws, hf, -⟩ := h'.movable hw hp
  simp [hf]

theorem unshared (h' : Represents h items f) : Unshared h.roots :=
  unshared_iff.2 fun _ _ _ hi hj hp =>
    h'.apart hi hj (Word.block?_of_pointer hp) (Word.block?_of_pointer hp)

/-! ## Changes -/

/-- Another heap with the same roots whose arena keeps the blocks holds the same. -/
theorem congr (h' : Represents h items f) {k : Heap} {g : Contents}
    (hr : k.roots = h.roots) (hc : k.arena.config = h.arena.config) (ho : k.arena.Owns g)
    (hg : ∀ x, f x ≠ none → g x = f x) : Represents k items g where
  unlimited := hc ▸ h'.unlimited
  owns := ho
  length_eq := hr ▸ h'.length_eq
  shown hi hitem := by
    have hs := h'.shown (hr ▸ hi) hitem
    exact hs.congr fun x hx => hg x (hs.ne_none hx)
  apart hi hj := h'.apart (hr ▸ hi) (hr ▸ hj)

/-- A word is pushed that stands for an item in no block of the others. -/
theorem push (h' : Represents h items f) {w : Word} {item : Item} (hs : item.Shown f w)
    (hw : ∀ (i : Nat) (v : Word) (x : Nat), h.roots[i]? = some v → v.block? = some x →
      w.block? ≠ some x) :
    Represents { h with roots := h.roots ++ [w] } (items ++ [item]) f := by
  refine ⟨h'.unlimited, h'.owns, by simp [h'.length_eq], ?_, ?_⟩
  · intro i v it hi hit
    rcases getElem?_concat_cases hi with hi | ⟨rfl, rfl⟩
    · have hlt := (List.getElem?_eq_some_iff.1 hi).1
      rw [h'.length_eq] at hlt
      rw [List.getElem?_append_left hlt] at hit
      exact h'.shown hi hit
    · rw [h'.length_eq, List.getElem?_concat_length] at hit
      exact Option.some.inj hit ▸ hs
  · intro i j u v x hi hj hu hv
    rcases getElem?_concat_cases hi with hi' | ⟨rfl, rfl⟩
    · rcases getElem?_concat_cases hj with hj' | ⟨rfl, rfl⟩
      · exact h'.apart hi' hj' hu hv
      · exact absurd hv (hw i u x hi' hu)
    · rcases getElem?_concat_cases hj with hj' | ⟨rfl, rfl⟩
      · exact absurd hu (hw j v x hj' hv)
      · rfl

theorem truncate (h' : Represents h items f) (size : Nat) :
    Represents { h with roots := h.roots.take size } (items.take size) f := by
  have hold : ∀ {α : Type} {as : List α} {i : Nat} {a : α}, (as.take size)[i]? = some a →
      as[i]? = some a := by
    intro α as i a hi
    rw [List.getElem?_take] at hi
    split at hi
    · exact hi
    · cases hi
  refine ⟨h'.unlimited, h'.owns, by simp [h'.length_eq], ?_, ?_⟩
  · intro i w item hi hitem
    exact h'.shown (hold hi) (hold hitem)
  · intro i j v w x hi hj
    exact h'.apart (hold hi) (hold hj)

theorem update (h' : Represents h items f) {i : Nat} {w : Word} {m : Memory} {hd : Header}
    {ws : List Word} (hi : h.roots[i]? = some w) (hp : w.kind = .pointer)
    (ho : (h.withMemory m).arena.Owns (f.put w.toNat (hd.toWord :: ws))) (hfit : hd.Fits ws)
    (hz : hd.uid = cstringUid → 0 ∈ ws.flatMap Word.bytes) :
    Represents (h.withMemory m) (items.set i (.object hd ws))
      (f.put w.toNat (hd.toWord :: ws)) := by
  refine ⟨h'.unlimited, ho, h'.length_eq.trans (List.length_set ..).symm, ?_, h'.apart⟩
  intro j v item hj hitem
  have hj : h.roots[j]? = some v := hj
  by_cases hij : j = i
  · subst hij
    obtain rfl : w = v := Option.some.inj (hi.symm.trans hj)
    have hlt := (List.getElem?_eq_some_iff.1 hj).1
    rw [List.getElem?_set_self (h'.length_eq ▸ hlt)] at hitem
    exact Option.some.inj hitem ▸ ⟨hp, f.put_self _ _, hfit, hz⟩
  · rw [List.getElem?_set_ne (Ne.symm hij)] at hitem
    apply (h'.shown hj hitem).congr
    intro x hx
    apply f.put_of_ne _
    rintro rfl
    exact hij (h'.apart hj hi hx (Word.block?_of_pointer hp))

theorem relocated (h' : Represents h items f) {k : Heap} {g : Contents}
    (hc : k.arena.config = h.arena.config) (ho : k.arena.Owns g)
    (hr : Relocated f h.roots k.roots g) : Represents k items g := by
  have hroot := h'.rooted
  refine ⟨hc ▸ h'.unlimited, ho, hr.length_eq.trans h'.length_eq, ?_, ?_⟩
  · intro i w' item hi hitem
    obtain ⟨w, hw, hm⟩ := hr.came hroot hi
    have hs := h'.shown hw hitem
    rcases hm with ⟨hn, rfl⟩ | ⟨hp, hp', -, -, hd, us, hold, hnew⟩
    · apply hs.congr
      intro x hx
      cases hf : f x with
      | none => exact absurd hf (hs.ne_none hx)
      | some us =>
        apply hr.of_unrooted hf
        intro v hv hp he
        obtain ⟨j, hj⟩ := List.getElem?_of_mem hv
        obtain rfl := h'.apart hw hj hx (he ▸ Word.block?_of_pointer hp)
        obtain rfl := Option.some.inj (hw.symm.trans hj)
        exact hn hp
    · obtain ⟨hd', ws, rfl, hw', hfit, hz⟩ := hs.of_pointer hp
      rw [hold] at hw'
      exact ⟨hp', hnew.trans hw', hfit, hz⟩
  · intro i j v' w' x hi hj hx hy
    obtain ⟨v, hv, hmv⟩ := hr.came hroot hi
    obtain ⟨w, hw, hmw⟩ := hr.came hroot hj
    rcases hmv with ⟨hvn, rfl⟩ | ⟨-, hvp, hvnew, -⟩
    · rcases hmw with ⟨hwn, rfl⟩ | ⟨-, hwp, hwnew, -⟩
      · exact h'.apart hv hw hx hy
      · obtain rfl := Option.some.inj ((Word.block?_of_pointer hwp).symm.trans hy)
        obtain ⟨item, -, hs⟩ := h'.item hv
        exact absurd hwnew (hs.ne_none hx)
    · obtain rfl := Option.some.inj ((Word.block?_of_pointer hvp).symm.trans hx)
      rcases hmw with ⟨hwn, rfl⟩ | ⟨-, hwp, hwnew, -⟩
      · obtain ⟨item, -, hs⟩ := h'.item hw
        exact absurd hvnew (hs.ne_none hy)
      · have he := Option.some.inj ((Word.block?_of_pointer hwp).symm.trans hy)
        obtain rfl := Word.toNat_inj.1 he
        exact unshared_iff.1 (hr.unshared_after hroot) i j w' hi hj hvp

end Represents

end Client

end TaggedHeap
