import TaggedHeap.Proofs.Arena.Requests

/-!
# Blocks in use

What a program keeps in an arena is a partial map from the addresses of blocks to their words. The
arena owns such a map when the blocks were handed out, do not overlap and hold those words. A new
block extends the map, a write changes it at one address, and any part of it may be forgotten.
-/

namespace TaggedHeap

/-- The words of the block that begins at an address. -/
abbrev Contents := Nat → Option (List Word)

namespace Contents

/-- The same contents but for the block at one address. -/
def put (f : Contents) (x : Nat) (ws : List Word) : Contents :=
  fun y => if y = x then some ws else f y

@[simp] theorem put_self (f : Contents) (x : Nat) (ws : List Word) : f.put x ws x = some ws := by
  simp [put]

theorem put_of_ne (f : Contents) {x y : Nat} (ws : List Word) (h : y ≠ x) :
    f.put x ws y = f y := by
  simp [put, h]

theorem put_eq_some_iff {f : Contents} {x y : Nat} {ws vs : List Word} :
    f.put x ws y = some vs ↔ (y = x ∧ ws = vs) ∨ (y ≠ x ∧ f y = some vs) := by
  by_cases h : y = x <;> simp [put, h]

theorem put_put (f : Contents) (x : Nat) (ws vs : List Word) :
    (f.put x ws).put x vs = f.put x vs := by
  funext y
  simp only [put]
  split <;> rfl

theorem put_comm (f : Contents) {x y : Nat} (ws vs : List Word) (h : x ≠ y) :
    (f.put x ws).put y vs = (f.put y vs).put x ws := by
  funext z
  simp only [put]
  split
  case isTrue hz => rw [if_neg (by omega)]
  case isFalse => rfl

theorem ne_of_eq_none {f : Contents} {x y : Nat} {ws : List Word} (hx : f x = none)
    (hy : f y = some ws) : y ≠ x := by
  rintro rfl
  rw [hx] at hy
  cases hy

end Contents

namespace Arena

/-- The blocks of the map were handed out by the arena, lie in one chunk each, do not overlap and
hold their words. -/
structure Owns (a : Arena) (f : Contents) : Prop where
  valid : a.Valid
  ne_nil : ∀ {x ws}, f x = some ws → ws ≠ []
  below : ∀ {x ws}, f x = some ws → Span.stop ⟨x, ws.length⟩ ≤ a.frontier
  inChunk : ∀ {x ws}, f x = some ws → a.memory.InChunk ⟨x, ws.length⟩
  apart : ∀ {x y ws vs}, f x = some ws → f y = some vs → x ≠ y →
    Span.Disjoint ⟨x, ws.length⟩ ⟨y, vs.length⟩
  holds : ∀ {x ws}, f x = some ws → a.memory.Holds x ws

theorem Valid.owns_none {a : Arena} (ha : a.Valid) : a.Owns fun _ => none :=
  ⟨ha, by simp, by simp, by simp, by simp, by simp⟩

namespace Owns

variable {a : Arena} {f : Contents} (h : a.Owns f)
include h

theorem mono {g : Contents} (hg : ∀ x ws, g x = some ws → f x = some ws) : a.Owns g where
  valid := h.valid
  ne_nil hx := h.ne_nil (hg _ _ hx)
  below hx := h.below (hg _ _ hx)
  inChunk hx := h.inChunk (hg _ _ hx)
  apart hx hy := h.apart (hg _ _ hx) (hg _ _ hy)
  holds hx := h.holds (hg _ _ hx)

omit h in
theorem of_put {x : Nat} {ws : List Word} (h : a.Owns (f.put x ws)) (hx : f x = none) :
    a.Owns f := by
  apply h.mono
  intro y us hy
  rw [f.put_of_ne ws (Contents.ne_of_eq_none hx hy), hy]

theorem lt_frontier {x : Nat} {ws : List Word} (hx : f x = some ws) : x < a.frontier := by
  have hb := h.below hx
  have hl := List.length_pos_iff.2 (h.ne_nil hx)
  simp only [Span.stop, wordSize] at hb
  omega

theorem eq_none_of_frontier_le {x : Nat} (hx : a.frontier ≤ x) : f x = none := by
  cases hf : f x with
  | none => rfl
  | some ws => exact absurd (h.lt_frontier hf) (Nat.not_lt.2 hx)

theorem read_start {x : Nat} {w : Word} {ws : List Word} (hx : f x = some (w :: ws)) :
    a.memory.read x = .ok w :=
  h.holds hx 0 w rfl

/-- Blocks begin at addresses that pointers can hold. -/
theorem start_aligned {x : Nat} {ws : List Word} (hx : f x = some ws) :
    x % wordSize = 0 ∧ x < wordLimit := by
  obtain ⟨w, ws, rfl⟩ := List.exists_cons_of_ne_nil (h.ne_nil hx)
  obtain ⟨-, hal, -⟩ := Memory.exists_read_iff.1 ⟨w, h.read_start hx⟩
  exact ⟨hal, Nat.lt_of_lt_of_le (h.lt_frontier hx)
    (Nat.le_trans h.valid.frontier_le_stop h.valid.stop_le)⟩

/-- A block that is handed out holds zeros and is none of those in use. -/
theorem grants {b : Arena} {x n : Nat} (hg : a.Grants x n b) (hb : b.Valid) (hn : 0 < n) :
    f x = none ∧ b.Owns (f.put x (List.replicate n Word.zero)) := by
  have hnew := h.eq_none_of_frontier_le hg.frontier_le
  have hle : a.frontier ≤ b.frontier := by
    rw [hg.frontier_eq]
    exact Nat.le_trans hg.frontier_le (Nat.le_add_right _ _)
  have hold : ∀ {y ws}, f y = some ws → Span.stop ⟨y, ws.length⟩ ≤ x := fun hy =>
    Nat.le_trans (h.below hy) hg.frontier_le
  refine ⟨hnew, hb, ?_, ?_, ?_, ?_, ?_⟩
  · intro y ws hy
    rcases Contents.put_eq_some_iff.1 hy with ⟨rfl, rfl⟩ | ⟨-, hy⟩
    · simp [Nat.ne_of_gt hn]
    · exact h.ne_nil hy
  · intro y ws hy
    rcases Contents.put_eq_some_iff.1 hy with ⟨rfl, rfl⟩ | ⟨-, hy⟩
    · simp [Span.stop, hg.frontier_eq]
    · exact Nat.le_trans (h.below hy) hle
  · intro y ws hy
    rcases Contents.put_eq_some_iff.1 hy with ⟨rfl, rfl⟩ | ⟨-, hy⟩
    · simpa using hg.inChunk hn
    · rcases hg.memory_eq with he | ⟨k, he⟩
      · exact he ▸ h.inChunk hy
      · exact he ▸ (h.inChunk hy).grow k
  · intro y z ws vs hy hz hne
    rcases Contents.put_eq_some_iff.1 hy with ⟨rfl, rfl⟩ | ⟨-, hfy⟩
    · rcases Contents.put_eq_some_iff.1 hz with ⟨rfl, -⟩ | ⟨-, hfz⟩
      · exact absurd rfl hne
      · exact .inr (hold hfz)
    · rcases Contents.put_eq_some_iff.1 hz with ⟨rfl, rfl⟩ | ⟨-, hfz⟩
      · exact .inl (hold hfy)
      · exact h.apart hfy hfz hne
  · intro y ws hy
    rcases Contents.put_eq_some_iff.1 hy with ⟨rfl, rfl⟩ | ⟨-, hy⟩
    · exact hg.holds
    · rcases hg.memory_eq with he | ⟨k, he⟩
      · exact he ▸ h.holds hy
      · exact he ▸ (h.holds hy).grow k

end Owns

theorem Valid.changedWithin {a : Arena} (ha : a.Valid) {m : Memory} {s : Span}
    (hc : a.memory.ChangedWithin s m) (hs : s.stop ≤ a.frontier) :
    { a with memory := m }.Valid := by
  refine ⟨?_, Even.of_sizes_eq ha.even hc.sizes_eq, ?_, ?_, ?_⟩
  · exact Nat.le_trans ha.cursor_le (Nat.le_of_eq (capacity_congr hc.sizes_eq).symm)
  · exact Nat.le_trans (Nat.le_of_eq (Memory.stop_congr hc.sizes_eq)) ha.stop_le
  · intro hne
    apply ha.opens
    intro he
    apply hne
    simpa [Memory.sizes, he] using hc.sizes_eq
  · intro y w hy hw
    rw [frontier_congr hc.sizes_eq] at hy
    rw [hc.read_eq y (.inr (Nat.le_trans hs hy))] at hw
    exact ha.fresh y w hy hw

namespace Owns

variable {a : Arena} {f : Contents} (h : a.Owns f)
include h

/-- Two blocks of a chunk with nothing between them may be taken for one. -/
theorem join {x : Nat} {ws vs : List Word} (hx : f x = some ws)
    (hy : f (x + wordSize * ws.length) = some vs)
    (hin : a.memory.InChunk ⟨x, (ws ++ vs).length⟩) :
    a.Owns (Contents.put (fun _ => none) x (ws ++ vs)) := by
  have hjoined : ∀ {y us}, Contents.put (fun _ => none) x (ws ++ vs) y = some us →
      y = x ∧ ws ++ vs = us := by
    intro y us hu
    rcases Contents.put_eq_some_iff.1 hu with hu | ⟨-, hu⟩
    · exact hu
    · cases hu
  refine ⟨h.valid, ?_, ?_, ?_, ?_, ?_⟩
  · intro y us hu
    obtain ⟨-, rfl⟩ := hjoined hu
    exact List.append_ne_nil_of_left_ne_nil (h.ne_nil hx) vs
  · intro y us hu
    obtain ⟨rfl, rfl⟩ := hjoined hu
    have hle := h.below hy
    simp only [Span.stop, List.length_append, wordSize] at *
    omega
  · intro y us hu
    obtain ⟨rfl, rfl⟩ := hjoined hu
    exact hin
  · intro y z us ts hu ht hne
    exact absurd ((hjoined hu).1.trans (hjoined ht).1.symm) hne
  · intro y us hu
    obtain ⟨rfl, rfl⟩ := hjoined hu
    exact Memory.holds_append.2 ⟨h.holds hx, h.holds hy⟩

/-- A change within one block is a change of its words. -/
theorem changedWithin {m : Memory} {x : Nat} {ws vs : List Word} (hx : f x = some ws)
    (hl : vs.length = ws.length) (hm : m.Holds x vs)
    (hc : a.memory.ChangedWithin ⟨x, ws.length⟩ m) : { a with memory := m }.Owns (f.put x vs) := by
  -- The new words span what the old ones did, so only what they are has to be looked at.
  have hold : ∀ {y us}, f.put x vs y = some us → ∃ us', f y = some us' ∧ us'.length = us.length := by
    intro y us hy
    rcases Contents.put_eq_some_iff.1 hy with ⟨rfl, rfl⟩ | ⟨-, hy⟩
    · exact ⟨ws, hx, hl.symm⟩
    · exact ⟨us, hy, rfl⟩
  refine ⟨h.valid.changedWithin hc (h.below hx), ?_, ?_, ?_, ?_, ?_⟩
  · intro y us hy
    obtain ⟨us', hu, hlen⟩ := hold hy
    have := h.ne_nil hu
    rw [← List.length_pos_iff] at this ⊢
    omega
  · intro y us hy
    obtain ⟨us', hu, hlen⟩ := hold hy
    rw [frontier_congr hc.sizes_eq, ← hlen]
    exact h.below hu
  · intro y us hy
    obtain ⟨us', hu, hlen⟩ := hold hy
    rw [← hlen]
    exact (h.inChunk hu).of_sizes_eq hc.sizes_eq
  · intro y z us ts hy hz hne
    obtain ⟨us', hu, hulen⟩ := hold hy
    obtain ⟨ts', ht, htlen⟩ := hold hz
    rw [← hulen, ← htlen]
    exact h.apart hu ht hne
  · intro y us hy
    rcases Contents.put_eq_some_iff.1 hy with ⟨rfl, rfl⟩ | ⟨hne, hy⟩
    · exact hm
    · exact (h.holds hy).changedWithin hc (h.apart hx hy (Ne.symm hne))

theorem write {x i : Nat} {ws : List Word} (hx : f x = some ws) (hi : i < ws.length) (w : Word) :
    ∃ m, a.memory.write (x + wordSize * i) w = .ok m ∧
      { a with memory := m }.Owns (f.put x (ws.set i w)) := by
  obtain ⟨m, hm, hh, hc⟩ := (h.holds hx).write hi w
  exact ⟨m, hm, h.changedWithin hx (List.length_set ..) hh hc⟩

theorem writeStart {x : Nat} {w : Word} {ws : List Word} (hx : f x = some (w :: ws)) (v : Word) :
    ∃ m, a.memory.write x v = .ok m ∧ { a with memory := m }.Owns (f.put x (v :: ws)) :=
  h.write hx (Nat.succ_pos _) v

/-- All words of a block from one of them on are replaced. -/
theorem writeMany {x : Nat} {ws us vs : List Word} (hx : f x = some (ws ++ us))
    (hl : vs.length = us.length) :
    ∃ m, a.memory.writeMany (x + wordSize * ws.length) vs = .ok m ∧
      { a with memory := m }.Owns (f.put x (ws ++ vs)) := by
  obtain ⟨hws, hus⟩ := Memory.holds_append.1 (h.holds hx)
  obtain ⟨m, hm, hh, hc⟩ := hus.writeMany hl
  refine ⟨m, hm, h.changedWithin hx (by simp [hl]) ?_ (hc.mono ?_ ?_)⟩
  · refine Memory.holds_append.2 ⟨hws.changedWithin hc (.inr ?_), hh⟩
    exact Nat.le_refl _
  · exact Nat.le_add_right _ _
  · simp only [Span.stop, List.length_append, wordSize]
    omega

/-- All words of a block up to one of them are replaced. -/
theorem overwritePrefix {x : Nat} {ws us vs : List Word} (hx : f x = some (ws ++ us))
    (hl : vs.length = ws.length) :
    ∃ m, a.memory.writeMany x vs = .ok m ∧ { a with memory := m }.Owns (f.put x (vs ++ us)) := by
  obtain ⟨hws, hus⟩ := Memory.holds_append.1 (h.holds hx)
  obtain ⟨m, hm, hh, hc⟩ := hws.writeMany hl
  refine ⟨m, hm, h.changedWithin hx (by simp [hl]) ?_ (hc.mono (Nat.le_refl _) ?_)⟩
  · refine Memory.holds_append.2 ⟨hh, ?_⟩
    rw [hl]
    exact hus.changedWithin hc (.inl (Nat.le_refl _))
  · simp only [Span.stop, List.length_append, wordSize]
    omega

theorem overwrite {x : Nat} {ws vs : List Word} (hx : f x = some ws)
    (hl : vs.length = ws.length) :
    ∃ m, a.memory.writeMany x vs = .ok m ∧ { a with memory := m }.Owns (f.put x vs) := by
  have hx' : f x = some ([] ++ ws) := hx
  exact h.writeMany hx' hl

end Owns

end Arena

end TaggedHeap
