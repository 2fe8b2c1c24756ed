import TaggedHeap.Proofs.Memory.Words

/-!
# Blocks of memory

A span is a run of words from an address on, and a block the words that stand in one. What is written
inside of a span leaves every block that is disjoint from it as it was.
-/

namespace TaggedHeap

/-- So many words from an address on. -/
structure Span where
  start : Nat
  length : Nat
deriving DecidableEq, Repr

namespace Span

/-- One past the last byte. -/
def stop (s : Span) : Nat := s.start + wordSize * s.length

def Disjoint (s t : Span) : Prop := s.stop ≤ t.start ∨ t.stop ≤ s.start

/-- The words of all the spans, taken together. -/
def total : List Span → Nat
  | [] => 0
  | s :: ss => s.length + total ss

/-- The byte at the address belongs to the words. -/
def Covers (s : Span) (a : Nat) : Prop := s.start ≤ a ∧ a < s.stop

theorem not_covers {s : Span} {a : Nat} : ¬ s.Covers a ↔ a < s.start ∨ s.stop ≤ a := by
  rw [Covers]
  omega

theorem Disjoint.symm {s t : Span} (h : s.Disjoint t) : t.Disjoint s := Or.symm h

theorem Disjoint.not_covers {s t : Span} (h : s.Disjoint t) {a : Nat} (ha : s.Covers a) :
    ¬ t.Covers a := by
  rintro ⟨hl, hr⟩
  obtain ⟨hl', hr'⟩ := ha
  rcases h with h | h <;> omega

end Span

namespace Memory

/-- The words stand in memory from an address on. -/
def Holds (m : Memory) (a : Nat) (ws : List Word) : Prop :=
  ∀ i w, ws[i]? = some w → m.read (a + wordSize * i) = .ok w

/-- Two memories that differ in the words of a span at most. -/
structure ChangedWithin (s : Span) (m n : Memory) : Prop where
  sizes_eq : n.sizes = m.sizes
  read_eq : ∀ b, b < s.start ∨ s.stop ≤ b → n.read b = m.read b

/-- The words of the span are words of a single chunk. -/
def InChunk (m : Memory) (s : Span) : Prop :=
  ∃ k c start, m.chunks[k]? = some c ∧ s.start = m.address ⟨k, start⟩ ∧
    start + s.length ≤ c.size

theorem InChunk.of_sizes_eq {m n : Memory} {s : Span} (h : m.InChunk s)
    (hs : n.sizes = m.sizes) : n.InChunk s := by
  obtain ⟨k, c, start, hk, ha, hl⟩ := h
  have hd : n.sizes[k]? = some c.size := by
    rw [hs, sizes, List.getElem?_map, hk]
    rfl
  obtain ⟨d, hd, hdc⟩ := Option.map_eq_some_iff.1 ((List.getElem?_map ..).symm.trans hd)
  exact ⟨k, d, start, hd, ha.trans (address_congr hs _).symm, by omega⟩

/-- Words of a chunk can be read, whatever they are. -/
theorem InChunk.exists_holds {m : Memory} {s : Span} (h : m.InChunk s) :
    ∃ ws, ws.length = s.length ∧ m.Holds s.start ws := by
  obtain ⟨k, c, start, hk, ha, hl⟩ := h
  refine ⟨(c.toList.drop start).take s.length, ?_, fun i w hw => ?_⟩
  · simp only [List.length_take, List.length_drop, Array.length_toList]
    omega
  · rw [List.getElem?_take] at hw
    split at hw
    case isFalse => cases hw
    case isTrue =>
      rw [List.getElem?_drop, Array.getElem?_toList] at hw
      have hp : m.get? ⟨k, start + i⟩ = some w := by simp [get?, hk, hw]
      rw [ha, ← address_add]
      exact read_address hp

theorem InChunk.grow {m : Memory} {s : Span} (h : m.InChunk s) (n : Nat) :
    (m.grow n).InChunk s := by
  obtain ⟨k, c, start, hk, ha, hl⟩ := h
  obtain ⟨hlt, -⟩ := List.getElem?_eq_some_iff.1 hk
  refine ⟨k, c, start, ?_, ?_, hl⟩
  · rw [Memory.grow, List.getElem?_append_left hlt, hk]
  · rw [ha, address, address, Memory.grow, List.take_append_of_le_length (Nat.le_of_lt hlt)]

theorem holds_nil (m : Memory) (a : Nat) : m.Holds a [] := by
  intro i w h
  simp at h

theorem holds_cons {m : Memory} {a : Nat} {w : Word} {ws : List Word} :
    m.Holds a (w :: ws) ↔ m.read a = .ok w ∧ m.Holds (a + wordSize) ws := by
  constructor
  · intro h
    refine ⟨h 0 w rfl, ?_⟩
    intro i v hv
    have hi := h (i + 1) v (by simpa using hv)
    rwa [Nat.mul_add, Nat.mul_one, Nat.add_comm _ wordSize, ← Nat.add_assoc] at hi
  · rintro ⟨hw, hws⟩ i v hv
    cases i with
    | zero =>
      obtain rfl : w = v := by simpa using hv
      exact hw
    | succ i =>
      have hi := hws i v (by simpa using hv)
      rwa [Nat.mul_add, Nat.mul_one, Nat.add_comm _ wordSize, ← Nat.add_assoc]

theorem readMany_eq_ok_iff_holds {m : Memory} {a : Nat} {ws : List Word} :
    m.readMany a ws.length = .ok ws ↔ m.Holds a ws := by
  induction ws generalizing a with
  | nil => simp [readMany, holds_nil]
  | cons w ws ih =>
    rw [holds_cons, ← ih]
    simp only [List.length_cons, readMany, bind, Except.bind, pure, Except.pure]
    cases m.read a with
    | error e => simp
    | ok v => cases m.readMany (a + wordSize) ws.length <;> simp

namespace Holds

variable {m n : Memory} {a : Nat} {ws : List Word}

/-- A change outside of the words is not seen in them. -/
theorem changedWithin {s : Span} (h : m.Holds a ws) (hc : m.ChangedWithin s n)
    (hs : s.Disjoint ⟨a, ws.length⟩) : n.Holds a ws := by
  intro i w hw
  obtain ⟨hi, -⟩ := List.getElem?_eq_some_iff.1 hw
  have hout : a + wordSize * i < s.start ∨ s.stop ≤ a + wordSize * i := by
    simp only [Span.Disjoint, Span.stop, wordSize] at hs ⊢
    omega
  rw [hc.read_eq _ hout]
  exact h i w hw

/-- Words that can be read as before are where they were. -/
theorem of_read (h : m.Holds a ws)
    (hr : ∀ b w, Span.Covers ⟨a, ws.length⟩ b → m.read b = .ok w → n.read b = .ok w) :
    n.Holds a ws := by
  intro i w hw
  obtain ⟨hi, -⟩ := List.getElem?_eq_some_iff.1 hw
  refine hr _ w ⟨Nat.le_add_right _ _, ?_⟩ (h i w hw)
  simp only [Span.stop, wordSize]
  omega

theorem grow (h : m.Holds a ws) (k : Nat) : (m.grow k).Holds a ws :=
  fun i w hw => read_grow (h i w hw) k

end Holds

theorem holds_append {m : Memory} {a : Nat} {ws vs : List Word} :
    m.Holds a (ws ++ vs) ↔ m.Holds a ws ∧ m.Holds (a + wordSize * ws.length) vs := by
  induction ws generalizing a with
  | nil => simp [holds_nil]
  | cons w ws ih =>
    have he : a + wordSize + wordSize * ws.length = a + wordSize * (w :: ws).length := by
      simp only [List.length_cons, wordSize]
      omega
    rw [List.cons_append, holds_cons, holds_cons, ih, and_assoc, he]

namespace ChangedWithin

variable {s : Span} {m n : Memory}

theorem refl (s : Span) (m : Memory) : m.ChangedWithin s m := ⟨rfl, fun _ _ => rfl⟩

theorem trans {k : Memory} (h : m.ChangedWithin s n) (h' : n.ChangedWithin s k) :
    m.ChangedWithin s k :=
  ⟨h'.sizes_eq.trans h.sizes_eq, fun b hb => (h'.read_eq b hb).trans (h.read_eq b hb)⟩

theorem mono {t : Span} (h : m.ChangedWithin s n) (hl : t.start ≤ s.start)
    (hr : s.stop ≤ t.stop) : m.ChangedWithin t n := by
  refine ⟨h.sizes_eq, ?_⟩
  intro b hb
  apply h.read_eq b
  omega

end ChangedWithin

theorem changedWithin_write {m n : Memory} {a : Nat} {w : Word} (h : m.write a w = .ok n) :
    m.ChangedWithin ⟨a, 1⟩ n := by
  refine ⟨sizes_write h, ?_⟩
  intro b hb
  rw [read_write h, if_neg (by simp only [Span.stop, wordSize] at hb; omega)]

theorem Holds.write {m : Memory} {a : Nat} {ws : List Word} (h : m.Holds a ws) {i : Nat}
    (hi : i < ws.length) (w : Word) :
    ∃ n, m.write (a + wordSize * i) w = .ok n ∧ n.Holds a (ws.set i w) ∧
      m.ChangedWithin ⟨a, ws.length⟩ n := by
  obtain ⟨n, hn⟩ := exists_write (h i ws[i] (List.getElem?_eq_getElem hi)) w
  refine ⟨n, hn, fun j v hv => ?_, (changedWithin_write hn).mono ?_ ?_⟩
  · rw [read_write hn]
    by_cases hij : j = i
    case pos =>
      subst hij
      rw [List.getElem?_set_self hi] at hv
      rw [if_pos rfl, Option.some.inj hv]
    case neg =>
      rw [List.getElem?_set_ne (Ne.symm hij)] at hv
      rw [if_neg (by simp only [wordSize]; omega)]
      exact h j v hv
  · exact Nat.le_add_right a _
  · simp only [Span.stop, wordSize]
    omega

theorem Holds.writeStart {m : Memory} {a : Nat} {w : Word} {ws : List Word}
    (h : m.Holds a (w :: ws)) (v : Word) :
    ∃ n, m.write a v = .ok n ∧ n.Holds a (v :: ws) ∧ m.ChangedWithin ⟨a, ws.length + 1⟩ n :=
  h.write (Nat.succ_pos _) v

theorem Holds.writeMany {m : Memory} {a : Nat} {ws : List Word} (h : m.Holds a ws)
    {vs : List Word} (hl : vs.length = ws.length) :
    ∃ n, m.writeMany a vs = .ok n ∧ n.Holds a vs ∧ m.ChangedWithin ⟨a, ws.length⟩ n := by
  induction vs generalizing m a ws with
  | nil => exact ⟨m, rfl, holds_nil m a, .refl _ m⟩
  | cons v vs ih =>
    obtain ⟨w, ws, rfl⟩ : ∃ w us, ws = w :: us := by
      cases ws with
      | nil => simp at hl
      | cons w us => exact ⟨w, us, rfl⟩
    obtain ⟨hw, hws⟩ := holds_cons.1 h
    obtain ⟨k, hk⟩ := exists_write hw v
    have hck := changedWithin_write hk
    have hks : k.Holds (a + wordSize) ws :=
      hws.changedWithin hck (.inl (by simp only [Span.stop, wordSize]; omega))
    obtain ⟨n, hn, hnv, hcn⟩ := ih hks (by simpa using hl)
    refine ⟨n, by simp only [Memory.writeMany, hk, bind, Except.bind, hn], ?_, ?_⟩
    · refine holds_cons.2 ⟨?_, hnv⟩
      rw [hcn.read_eq a (.inl (by simp only [wordSize]; omega)), read_write hk, if_pos rfl]
    · refine (hck.mono ?_ ?_).trans (hcn.mono ?_ ?_)
      all_goals simp only [Span.stop, List.length_cons, wordSize]; omega

/-- What is written to a run of words changes no other word. -/
theorem changedWithin_writeMany {m n : Memory} {a : Nat} {ws : List Word}
    (h : m.writeMany a ws = .ok n) : m.ChangedWithin ⟨a, ws.length⟩ n := by
  induction ws generalizing m a with
  | nil =>
    obtain rfl := Except.ok.inj h
    exact .refl _ m
  | cons w ws ih =>
    obtain ⟨k, hk, h⟩ := bind_eq_ok_iff.1 h
    refine ((changedWithin_write hk).mono ?_ ?_).trans ((ih h).mono ?_ ?_)
    all_goals simp only [Span.stop, List.length_cons, wordSize]; omega

/-- A run of words that is filled with one word holds it, and other words stay. -/
theorem read_writeMany_replicate {m n : Memory} {a k : Nat} {w : Word}
    (h : m.writeMany a (List.replicate k w) = .ok n) (b : Nat) :
    n.read b = m.read b ∨ Span.Covers ⟨a, k⟩ b ∧ n.read b = .ok w := by
  induction k generalizing m a with
  | zero =>
    obtain rfl := Except.ok.inj h
    exact .inl rfl
  | succ k ih =>
    obtain ⟨m₁, hm₁, h⟩ := bind_eq_ok_iff.1 h
    rcases ih h with he | ⟨hc, he⟩
    · rw [he, read_write hm₁]
      split
      case isTrue hb =>
        refine .inr ⟨⟨Nat.le_of_eq hb.symm, ?_⟩, rfl⟩
        simp only [Span.stop, wordSize]
        omega
      case isFalse => exact .inl rfl
    · refine .inr ⟨⟨Nat.le_trans (Nat.le_add_right _ _) hc.1, ?_⟩, he⟩
      have hlt := hc.2
      simp only [Span.stop, wordSize] at hlt ⊢
      omega

end Memory

end TaggedHeap
