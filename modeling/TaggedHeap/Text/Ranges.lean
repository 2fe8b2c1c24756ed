/-!
# Ranges of code points

A set of characters as the closed ranges of its code points, in ascending order, so that a look-up
may stop at the first range that begins too late. It answers as a look-up through all of them would.
-/

namespace TaggedHeap

/-- Every range ends where it begins or later, and the next one begins after that. -/
def ascending : List (Nat × Nat) → Bool
  | [] => true
  | [r] => r.1 ≤ r.2
  | r :: s :: rest => r.1 ≤ r.2 && r.2 < s.1 && ascending (s :: rest)

/-- Closed ranges of code points. -/
structure Ranges where
  list : List (Nat × Nat)
  ascends : ascending list = true := by decide +kernel

namespace Ranges

/-- Looks for the range of `n`, up to the first one that begins behind it. -/
def search (n : Nat) : List (Nat × Nat) → Bool
  | [] => false
  | r :: rest => r.1 ≤ n && (n ≤ r.2 || search n rest)

def contains (rs : Ranges) (c : Char) : Bool := search c.toNat rs.list

theorem ascending_tail {r : Nat × Nat} {rest : List (Nat × Nat)}
    (h : ascending (r :: rest) = true) : ascending rest = true := by
  cases rest with
  | nil => rfl
  | cons s rest =>
    simp only [ascending, Bool.and_eq_true] at h
    exact h.2

/-- The later ranges begin behind the first one. -/
theorem lt_of_mem_tail {r s : Nat × Nat} {rest : List (Nat × Nat)}
    (h : ascending (r :: rest) = true) (hs : s ∈ rest) : r.1 < s.1 := by
  induction rest generalizing r with
  | nil => cases hs
  | cons t rest ih =>
    have ht := ascending_tail h
    simp only [ascending, Bool.and_eq_true, decide_eq_true_eq] at h
    cases hs with
    | head => omega
    | tail _ hs =>
      have := ih ht hs
      omega

theorem search_eq_true_iff {n : Nat} {rs : List (Nat × Nat)} (h : ascending rs = true) :
    search n rs = true ↔ ∃ r ∈ rs, r.1 ≤ n ∧ n ≤ r.2 := by
  induction rs with
  | nil => simp [search]
  | cons r rest ih =>
    simp only [search, Bool.and_eq_true, Bool.or_eq_true, decide_eq_true_eq,
      ih (ascending_tail h), List.mem_cons]
    constructor
    · rintro ⟨hr, hn | ⟨s, hs, hn⟩⟩
      · exact ⟨r, .inl rfl, hr, hn⟩
      · exact ⟨s, .inr hs, hn⟩
    · rintro ⟨s, rfl | hs, hn⟩
      · exact ⟨hn.1, .inl hn.2⟩
      · have := lt_of_mem_tail h hs
        exact ⟨by omega, .inr ⟨s, hs, hn⟩⟩

/-- Stopping early misses nothing. -/
theorem contains_eq_true_iff (rs : Ranges) (c : Char) :
    rs.contains c = true ↔ ∃ r ∈ rs.list, r.1 ≤ c.toNat ∧ c.toNat ≤ r.2 :=
  search_eq_true_iff rs.ascends

end Ranges

end TaggedHeap
