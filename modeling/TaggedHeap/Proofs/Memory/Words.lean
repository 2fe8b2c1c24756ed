import TaggedHeap.Memory.Lemmas

/-!
# Memory as one list of words

Chunks lie one behind the other, so memory reads like a single list of words that starts at the
origin. A write replaces one word of the list and a new chunk appends zeros to it; the places of
words in chunks are not needed any more to say what an access does.
-/

namespace TaggedHeap.Memory

/-- The words of all chunks in the order of their addresses. -/
def words (m : Memory) : List Word := m.chunks.flatMap Array.toList

/-- One past the last byte of memory. -/
def stop (m : Memory) : Nat := origin + wordSize * m.extent

theorem length_flatMap_toList (cs : List (Array Word)) :
    (cs.flatMap Array.toList).length = wordsIn cs := by
  induction cs with
  | nil => rfl
  | cons c cs ih =>
    simp only [List.flatMap_cons, List.length_append, Array.length_toList, wordsIn, ih]

@[simp] theorem length_words (m : Memory) : m.words.length = m.extent :=
  length_flatMap_toList m.chunks

theorem getElem?_flatMap_toList {cs : List (Array Word)} {c w : Nat} {chunk : Array Word}
    (hc : cs[c]? = some chunk) (hw : w < chunk.size) :
    (cs.flatMap Array.toList)[wordsIn (cs.take c) + w]? = chunk[w]? := by
  induction cs generalizing c with
  | nil => simp at hc
  | cons d ds ih =>
    cases c with
    | zero =>
      obtain rfl : d = chunk := by simpa using hc
      simp only [List.flatMap_cons, List.take_zero, wordsIn, Nat.zero_add]
      rw [List.getElem?_append_left (by simpa using hw), Array.getElem?_toList]
    | succ c =>
      have hrest := ih (c := c) (by simpa using hc)
      simp only [List.flatMap_cons, List.take_succ_cons, wordsIn]
      rw [List.getElem?_append_right (by simp only [Array.length_toList]; omega)]
      rw [Array.length_toList, Nat.add_assoc, Nat.add_sub_cancel_left, hrest]

theorem getElem?_words {m : Memory} {p : Place} {w : Word} (h : m.get? p = some w) :
    m.words[wordsIn (m.chunks.take p.chunk) + p.word]? = some w := by
  obtain ⟨c, hc, hv⟩ := Option.bind_eq_some_iff.1 h
  obtain ⟨hp, _⟩ := Array.getElem?_eq_some_iff.1 hv
  exact (getElem?_flatMap_toList hc hp).trans hv

theorem exists_placeIn {cs : List (Array Word)} {offset : Nat}
    (h : offset < wordSize * wordsIn cs) (first : Nat) :
    ∃ p, placeIn first offset cs = some p := by
  induction cs generalizing first offset with
  | nil => simp [wordsIn] at h
  | cons c cs ih =>
    simp only [placeIn]
    split
    case isTrue => exact ⟨_, rfl⟩
    case isFalse hlt =>
      simp only [wordsIn, wordSize] at h hlt
      exact ih (by simp only [wordSize]; omega) (first + 1)

theorem read_eq_ok_iff_words {m : Memory} {a : Nat} {w : Word} :
    m.read a = .ok w ↔
      origin ≤ a ∧ a % wordSize = 0 ∧ m.words[(a - origin) / wordSize]? = some w := by
  have found : ∀ {v : Word}, m.read a = .ok v →
      origin ≤ a ∧ a % wordSize = 0 ∧ m.words[(a - origin) / wordSize]? = some v := by
    intro v h
    obtain ⟨p, ht, hv⟩ := read_eq_ok_iff.1 h
    obtain ⟨rfl, _⟩ := target_eq_ok_iff.1 ht
    have hi : (m.address p - origin) / wordSize = wordsIn (m.chunks.take p.chunk) + p.word := by
      simp only [address, wordSize]
      omega
    rw [hi]
    exact ⟨by simp only [address]; omega, by simp only [address, wordSize, origin]; omega,
      getElem?_words hv⟩
  constructor
  · exact found
  · rintro ⟨hlow, ha, hw⟩
    obtain ⟨hi, -⟩ := List.getElem?_eq_some_iff.1 hw
    rw [length_words] at hi
    have hoff : a - origin < wordSize * wordsIn m.chunks := by
      simp only [extent, wordSize] at hi ⊢
      omega
    obtain ⟨p, hp⟩ := exists_placeIn hoff 0
    have hl : m.locate? a = some p := by rw [locate?, if_neg (by omega), hp]
    obtain ⟨hap, v, hv⟩ := address_locate? hl
    have hr : m.read a = .ok v :=
      read_eq_ok_iff.2 ⟨p, target_eq_ok_iff.2 ⟨by omega, v, hv⟩, hv⟩
    have hvw := (found hr).2.2.symm.trans hw
    rw [hr, Option.some.inj hvw]

/-- The addresses that can be read. -/
theorem exists_read_iff {m : Memory} {a : Nat} :
    (∃ w, m.read a = .ok w) ↔ origin ≤ a ∧ a % wordSize = 0 ∧ a < m.stop := by
  constructor
  · rintro ⟨w, h⟩
    obtain ⟨hlow, ha, hw⟩ := read_eq_ok_iff_words.1 h
    obtain ⟨hi, -⟩ := List.getElem?_eq_some_iff.1 hw
    rw [length_words] at hi
    refine ⟨hlow, ha, ?_⟩
    simp only [stop, wordSize] at *
    omega
  · rintro ⟨hlow, ha, hstop⟩
    have hi : (a - origin) / wordSize < m.words.length := by
      rw [length_words]
      simp only [stop, wordSize] at *
      omega
    exact ⟨_, read_eq_ok_iff_words.2 ⟨hlow, ha, List.getElem?_eq_getElem hi⟩⟩

theorem exists_write {m : Memory} {a : Nat} {v : Word} (h : m.read a = .ok v) (w : Word) :
    ∃ n, m.write a w = .ok n := by
  obtain ⟨p, ht, _⟩ := read_eq_ok_iff.1 h
  exact ⟨m.set p w, by simp only [write, ht]⟩

theorem sizes_write {m n : Memory} {a : Nat} {w : Word} (h : m.write a w = .ok n) :
    n.sizes = m.sizes := by
  cases ht : m.target a with
  | error e => simp [write, ht] at h
  | ok p =>
    obtain rfl : m.set p w = n := by simpa [write, ht] using h
    exact sizes_set m p w

theorem sizes_writeMany {m n : Memory} {a : Nat} {ws : List Word}
    (h : m.writeMany a ws = .ok n) : n.sizes = m.sizes := by
  induction ws generalizing m a with
  | nil => rw [Except.ok.inj h]
  | cons w ws ih =>
    obtain ⟨k, hk, h⟩ := bind_eq_ok_iff.1 h
    rw [ih h, sizes_write hk]

theorem wordsIn_congr {cs ds : List (Array Word)} (h : cs.map Array.size = ds.map Array.size) :
    wordsIn cs = wordsIn ds := by
  induction cs generalizing ds with
  | nil =>
    obtain rfl : ds = [] := by simpa using h.symm
    rfl
  | cons c cs ih =>
    cases ds with
    | nil => simp at h
    | cons d ds =>
      obtain ⟨hs, ht⟩ := List.cons.inj h
      simp only [wordsIn, hs, ih ht]

theorem extent_congr {m n : Memory} (h : m.sizes = n.sizes) : m.extent = n.extent :=
  wordsIn_congr h

theorem stop_congr {m n : Memory} (h : m.sizes = n.sizes) : m.stop = n.stop := by
  rw [stop, stop, extent_congr h]

theorem address_congr {m n : Memory} (h : m.sizes = n.sizes) (p : Place) :
    m.address p = n.address p := by
  have ht : (m.chunks.take p.chunk).map Array.size = (n.chunks.take p.chunk).map Array.size := by
    rw [List.map_take, List.map_take]
    exact congrArg (List.take p.chunk) h
  simp only [address, wordsIn_congr ht]

/-! ## Words at the addresses of places -/

theorem target_address {m : Memory} {p : Place} {v : Word} (h : m.get? p = some v) :
    m.target (m.address p) = .ok p := target_eq_ok_iff.2 ⟨rfl, v, h⟩

theorem read_address {m : Memory} {p : Place} {v : Word} (h : m.get? p = some v) :
    m.read (m.address p) = .ok v := read_eq_ok_iff.2 ⟨p, target_address h, h⟩

theorem address_add (m : Memory) (k w i : Nat) :
    m.address ⟨k, w + i⟩ = m.address ⟨k, w⟩ + wordSize * i := by
  simp only [address, wordSize]
  omega

theorem get?_of_read {m n : Memory} {p : Place} {v : Word} (hs : n.sizes = m.sizes)
    (hread : n.read (m.address p) = m.read (m.address p)) (h : m.get? p = some v) :
    n.get? p = some v := by
  obtain ⟨q, hq, hget⟩ := read_eq_ok_iff.1 (hread.trans (read_address h))
  have hpq : p = q := by
    rw [target_congr hs, target_address h] at hq
    exact Except.ok.inj hq
  rw [hpq]
  exact hget

theorem get?_congr {m n : Memory} {p : Place} (hs : n.sizes = m.sizes)
    (hread : n.read (m.address p) = m.read (m.address p)) : n.get? p = m.get? p := by
  apply Option.ext
  intro v
  constructor
  · apply get?_of_read hs.symm
    rw [address_congr hs, hread]
  · exact get?_of_read hs hread

/-- A memory is known by the sizes of its chunks and by what is read from it. -/
theorem eq_of_read {m n : Memory} (hs : n.sizes = m.sizes) (hread : ∀ a, n.read a = m.read a) :
    n = m := by
  have hchunk : n.chunks = m.chunks := by
    apply List.ext_getElem?
    intro k
    have hsize : n.chunks[k]?.map Array.size = m.chunks[k]?.map Array.size := by
      rw [← List.getElem?_map, ← List.getElem?_map]
      exact congrArg (·[k]?) hs
    have hget : ∀ i, n.get? ⟨k, i⟩ = m.get? ⟨k, i⟩ := fun i => get?_congr hs (hread _)
    simp only [get?] at hget
    cases hn : n.chunks[k]? with
    | none =>
      rw [hn] at hsize
      exact (Option.map_eq_none_iff.1 hsize.symm).symm
    | some c =>
      rw [hn] at hsize hget
      obtain ⟨d, hd, -⟩ := Option.map_eq_some_iff.1 hsize.symm
      rw [hd] at hget ⊢
      exact congrArg some (Array.ext_getElem? hget)
  cases m
  cases n
  exact congrArg Memory.mk hchunk

/-! ## New chunks -/

theorem wordsIn_append (cs ds : List (Array Word)) :
    wordsIn (cs ++ ds) = wordsIn cs + wordsIn ds := by
  induction cs with
  | nil => simp [wordsIn]
  | cons c cs ih => simp only [List.cons_append, wordsIn, ih, Nat.add_assoc]

@[simp] theorem words_grow (m : Memory) (k : Nat) :
    (m.grow k).words = m.words ++ List.replicate k Word.zero := by
  simp [words, grow]

@[simp] theorem extent_grow (m : Memory) (k : Nat) : (m.grow k).extent = m.extent + k := by
  simp [extent, grow, wordsIn_append, wordsIn]

theorem read_grow {m : Memory} {a : Nat} {w : Word} (h : m.read a = .ok w) (k : Nat) :
    (m.grow k).read a = .ok w := by
  obtain ⟨hlow, ha, hw⟩ := read_eq_ok_iff_words.1 h
  obtain ⟨hi, -⟩ := List.getElem?_eq_some_iff.1 hw
  refine read_eq_ok_iff_words.2 ⟨hlow, ha, ?_⟩
  rw [words_grow, List.getElem?_append_left hi, hw]

theorem read_grow_of_stop_le {m : Memory} {a k : Nat} {w : Word} (hstop : m.stop ≤ a)
    (h : (m.grow k).read a = .ok w) : w = Word.zero := by
  obtain ⟨hlow, ha, hw⟩ := read_eq_ok_iff_words.1 h
  have hi : m.words.length ≤ (a - origin) / wordSize := by
    rw [length_words]
    simp only [stop, wordSize] at *
    omega
  rw [words_grow, List.getElem?_append_right hi] at hw
  obtain ⟨_, hz⟩ := List.getElem?_eq_some_iff.1 hw
  simpa using hz.symm

end TaggedHeap.Memory
