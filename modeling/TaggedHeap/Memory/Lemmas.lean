import TaggedHeap.Memory

/-!
# Memory by places

Where a place lies depends on the sizes of the chunks alone. Every place has an address and every
address in memory a place, so a write is seen at its own address and at no other.
-/

namespace TaggedHeap.Memory

/-- The sizes of the chunks decide where everything lies. -/
def sizes (m : Memory) : List Nat := m.chunks.map Array.size

theorem sizes_set (m : Memory) (p : Place) (w : Word) : (m.set p w).sizes = m.sizes := by
  apply List.ext_getElem?
  intro i
  simp only [sizes, set, List.getElem?_map, List.getElem?_modify]
  split
  case isTrue h => cases m.chunks[i]? <;> simp
  case isFalse h => simp

theorem placeIn_congr {cs ds : List (Array Word)} (h : cs.map Array.size = ds.map Array.size)
    (first offset : Nat) : placeIn first offset cs = placeIn first offset ds := by
  induction cs generalizing ds first offset with
  | nil =>
    have hd : ds = [] := by simpa using h.symm
    rw [hd]
  | cons c cs ih =>
    cases ds with
    | nil => simp at h
    | cons d ds =>
      obtain ⟨hs, ht⟩ := List.cons.inj h
      simp only [placeIn, hs, ih ht]

theorem locate?_congr {m n : Memory} (h : m.sizes = n.sizes) (a : Nat) :
    m.locate? a = n.locate? a := by
  simp only [locate?, placeIn_congr h]

theorem get?_set_self {m : Memory} {p : Place} {v : Word} (h : m.get? p = some v) (w : Word) :
    (m.set p w).get? p = some w := by
  obtain ⟨c, hc, hv⟩ := Option.bind_eq_some_iff.1 h
  obtain ⟨hp, _⟩ := Array.getElem?_eq_some_iff.1 hv
  simp [get?, set, hc, hp]

theorem get?_set_of_ne (m : Memory) {p q : Place} (h : q ≠ p) (w : Word) :
    (m.set p w).get? q = m.get? q := by
  rcases p with ⟨pc, pw⟩
  rcases q with ⟨qc, qw⟩
  simp only [get?, set, List.getElem?_modify]
  split
  case isTrue hc =>
    have hw : pw ≠ qw := by rintro rfl; exact h (by rw [hc])
    cases m.chunks[qc]? <;> simp [hw]
  case isFalse => cases m.chunks[qc]? <;> rfl

/-- Every byte of a word lies at the place of the word. -/
theorem placeIn_address (first : Nat) (cs : List (Array Word)) (c w b : Nat) (hb : b < wordSize)
    {chunk : Array Word} (hc : cs[c]? = some chunk) (hw : w < chunk.size) :
    placeIn first (wordSize * (wordsIn (cs.take c) + w) + b) cs =
      some ⟨first + c, w⟩ := by
  induction cs generalizing first c with
  | nil => simp at hc
  | cons d ds ih =>
    simp only [wordSize] at *
    cases c with
    | zero =>
      have hd : d = chunk := by simpa using hc
      subst hd
      have hlt : 8 * w + b < 8 * d.size := by omega
      have hdiv : (8 * w + b) / 8 = w := by omega
      simp [placeIn, wordsIn, wordSize, hlt, hdiv]
    | succ c =>
      have hge : ¬ 8 * ((d.size + wordsIn (ds.take c)) + w) + b < 8 * d.size := by
        omega
      have hsub : 8 * ((d.size + wordsIn (ds.take c)) + w) + b - 8 * d.size =
          8 * (wordsIn (ds.take c) + w) + b := by omega
      have hrest := ih (first + 1) c (by simpa using hc)
      simp only [List.take_succ_cons, wordsIn, placeIn, wordSize, hge, hsub,
        if_false, hrest]
      rw [Nat.add_right_comm first 1 c, Nat.add_assoc]

theorem locate?_address {m : Memory} {p : Place} {v : Word} (h : m.get? p = some v) {b : Nat}
    (hb : b < wordSize) : m.locate? (m.address p + b) = some p := by
  obtain ⟨c, hc, hv⟩ := Option.bind_eq_some_iff.1 h
  obtain ⟨hp, _⟩ := Array.getElem?_eq_some_iff.1 hv
  have hlow : ¬ m.address p + b < origin := by simp only [address]; omega
  have hoff : m.address p + b - origin =
      wordSize * (wordsIn (m.chunks.take p.chunk) + p.word) + b := by
    simp only [address]; omega
  rw [locate?, if_neg hlow, hoff, placeIn_address 0 m.chunks p.chunk p.word b hb hc hp,
    Nat.zero_add]

theorem placeIn_eq_some {first offset : Nat} {cs : List (Array Word)} {p : Place}
    (h : placeIn first offset cs = some p) :
    ∃ c chunk, p.chunk = first + c ∧ cs[c]? = some chunk ∧ p.word < chunk.size ∧
      offset = wordSize * (wordsIn (cs.take c) + p.word) + offset % wordSize := by
  induction cs generalizing first offset with
  | nil => simp [placeIn] at h
  | cons d ds ih =>
    simp only [placeIn, wordSize] at *
    by_cases hlt : offset < 8 * d.size
    case pos =>
      rw [if_pos hlt] at h
      obtain rfl := Option.some.inj h
      refine ⟨0, d, rfl, rfl, (Nat.div_lt_iff_lt_mul (by decide)).2 (by omega), ?_⟩
      simp only [List.take_zero, wordsIn]
      omega
    case neg =>
      rw [if_neg hlt] at h
      obtain ⟨c, chunk, hp, hc, hw, ho⟩ := ih h
      refine ⟨c + 1, chunk, by omega, by simpa using hc, hw, ?_⟩
      simp only [List.take_succ_cons, wordsIn]
      omega

theorem address_locate? {m : Memory} {a : Nat} {p : Place} (h : m.locate? a = some p) :
    a = m.address p + a % wordSize ∧ ∃ v, m.get? p = some v := by
  simp only [locate?] at h
  split at h
  case isTrue => simp at h
  case isFalse hlow =>
    obtain ⟨c, chunk, hp, hc, hw, ho⟩ := placeIn_eq_some h
    rw [Nat.zero_add] at hp
    subst hp
    refine ⟨?_, chunk[p.word], ?_⟩
    · simp only [address, wordSize, origin] at *
      omega
    · simp [get?, hc, hw]

theorem target_eq_ok_iff {m : Memory} {a : Nat} {p : Place} :
    m.target a = .ok p ↔ a = m.address p ∧ ∃ v, m.get? p = some v := by
  constructor
  · intro h
    simp only [target] at h
    split at h
    case isFalse => simp at h
    case isTrue ha =>
      split at h
      case h_2 => simp at h
      case h_1 q hq =>
        obtain rfl := Except.ok.inj h
        obtain ⟨hp, hv⟩ := address_locate? hq
        exact ⟨by omega, hv⟩
  · rintro ⟨rfl, v, hv⟩
    have ha : m.address p % wordSize = 0 := by
      simp only [address, wordSize, origin]
      omega
    have hp := locate?_address hv (b := 0) (by decide)
    rw [Nat.add_zero] at hp
    simp only [target, ha, hp, if_true]

theorem target_congr {m n : Memory} (h : m.sizes = n.sizes) (a : Nat) :
    m.target a = n.target a := by
  simp only [target, locate?_congr h]

theorem read_eq_ok_iff {m : Memory} {a : Nat} {w : Word} :
    m.read a = .ok w ↔ ∃ p, m.target a = .ok p ∧ m.get? p = some w := by
  cases ht : m.target a with
  | error e => simp [read, ht]
  | ok p => cases hg : m.get? p <;> simp [read, ht, hg]

/-- A write is seen at its own address and at no other. -/
theorem read_write {m n : Memory} {a : Nat} {w : Word} (h : m.write a w = .ok n) (b : Nat) :
    n.read b = if b = a then .ok w else m.read b := by
  cases ht : m.target a with
  | error e => simp [write, ht] at h
  | ok p =>
    obtain rfl : m.set p w = n := by simpa [write, ht] using h
    obtain ⟨ha, v, hv⟩ := target_eq_ok_iff.1 ht
    have hb := target_congr (sizes_set m p w) b
    split
    case isTrue he =>
      subst he
      exact read_eq_ok_iff.2 ⟨p, hb.trans ht, get?_set_self hv w⟩
    case isFalse hne =>
      simp only [read, hb]
      cases hq : m.target b with
      | error e => rfl
      | ok q =>
        have hqp : q ≠ p := by
          rintro rfl
          exact hne ((target_eq_ok_iff.1 hq).1.trans ha.symm)
        simp only [get?_set_of_ne m hqp]

end TaggedHeap.Memory
