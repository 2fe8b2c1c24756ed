import Mathlib.Data.List.Induction
import Mathlib.Data.List.Nodup
import Mathlib.Data.List.Perm.Basic
import TaggedHeap.Summary

/-!
# Tallies as finite maps

A tally that was counted up from nothing is a finite map from things to positive counts. Counting a
thing changes the count of this thing only, so the count of a thing is how often it was counted,
whatever came between. If the things have different ranks, to sort the entries leaves no choice: two
tallies with the same counts are the same list once they are sorted, however their entries stood.
-/

namespace TaggedHeap.Tally

variable {κ : Type} {rank : κ → Nat}

/-- Each thing has one entry at most. -/
def Keyed (t : Tally κ) : Prop := (t.map Prod.fst).Nodup

/-- The entries stand in the order of their ranks, each rank once. -/
def Ordered (rank : κ → Nat) (t : Tally κ) : Prop := t.Pairwise fun a b => rank a.1 < rank b.1

/-! ## Order -/

theorem Keyed.nodup {t : Tally κ} (h : Keyed t) : t.Nodup := List.Nodup.of_map _ h

theorem Keyed.of_perm {s t : Tally κ} (ht : Keyed t) (h : s.Perm t) : Keyed s :=
  (h.map Prod.fst).nodup_iff.2 ht

theorem Ordered.nodup {t : Tally κ} (h : Ordered rank t) : t.Nodup := by
  refine List.Pairwise.imp ?_ h
  rintro e _ hlt rfl
  exact Nat.lt_irrefl _ hlt

theorem Ordered.eq_of_perm {s t : Tally κ} (hs : Ordered rank s) (ht : Ordered rank t)
    (h : s.Perm t) : s = t :=
  h.eq_of_pairwise (fun _ _ _ _ hab hba => absurd hba (Nat.lt_asymm hab)) hs ht

theorem precedes_iff {a b : κ × Nat} :
    precedes rank a b = true ↔ rank a.1 < rank b.1 ∨ rank a.1 = rank b.1 ∧ a.2 ≤ b.2 := by
  simp [precedes]

theorem sorted_perm (rank : κ → Nat) (t : Tally κ) : (t.sorted rank).Perm t :=
  List.mergeSort_perm t _

theorem total_eq_of_perm {s t : Tally κ} (h : s.Perm t) : s.total = t.total := by
  induction h with
  | nil => rfl
  | cons e _ ih => exact congrArg (e.2 + ·) ih
  | swap e f t => exact Nat.add_left_comm _ _ _
  | trans _ _ ihs iht => exact ihs.trans iht

theorem total_eq_of_sorted_eq {s t : Tally κ} (h : s.sorted rank = t.sorted rank) :
    s.total = t.total := by
  apply total_eq_of_perm
  exact (s.sorted_perm rank).symm.trans (h ▸ t.sorted_perm rank)

/-- Sorting never gets to compare two counts, as no two entries are of the same thing. -/
theorem Keyed.ordered_sorted (hr : Function.Injective rank) {t : Tally κ} (h : Keyed t) :
    Ordered rank (t.sorted rank) := by
  have hsorted : (t.sorted rank).Pairwise fun a b => precedes rank a b = true := by
    apply List.pairwise_mergeSort
    · simp only [precedes_iff]
      omega
    · simp only [Bool.or_eq_true, precedes_iff]
      omega
  have hkeys : (t.sorted rank).Pairwise fun a b => a.1 ≠ b.1 :=
    List.pairwise_map.1 (h.of_perm (t.sorted_perm rank))
  refine (hsorted.and hkeys).imp ?_
  rintro a b ⟨hab, hne⟩
  have hranks : rank a.1 ≠ rank b.1 := fun he => hne (hr he)
  rw [precedes_iff] at hab
  omega

/-- In whatever order the entries stand, they are sorted to the same list. -/
theorem Keyed.sorted_eq_of_perm (hr : Function.Injective rank) {s t : Tally κ} (ht : Keyed t)
    (h : s.Perm t) : s.sorted rank = t.sorted rank := by
  apply ((ht.of_perm h).ordered_sorted hr).eq_of_perm (ht.ordered_sorted hr)
  exact ((s.sorted_perm rank).trans h).trans (t.sorted_perm rank).symm

/-! ## Counting -/

variable [DecidableEq κ]

/-- Counts everything in the list. -/
def ofList (xs : List κ) : Tally κ := xs.foldl (fun t x => t.add x) []

theorem ofList_append (xs ys : List κ) :
    ofList (xs ++ ys) = ys.foldl (fun t x => t.add x) (ofList xs) :=
  List.foldl_append

theorem ofList_append_singleton (xs : List κ) (x : κ) :
    ofList (xs ++ [x]) = (ofList xs).add x :=
  ofList_append xs [x]

theorem keys_add (k : κ) (t : Tally κ) :
    (t.add k).map Prod.fst =
      if k ∈ t.map Prod.fst then t.map Prod.fst else t.map Prod.fst ++ [k] := by
  induction t with
  | nil => rfl
  | cons f rest ih =>
    obtain ⟨j, n⟩ := f
    rw [add]
    split
    case isTrue hj => simp [hj]
    case isFalse hj =>
      rw [List.map_cons, ih]
      have hk : k ≠ j := Ne.symm hj
      split <;> simp_all

theorem Keyed.add {t : Tally κ} (h : Keyed t) (k : κ) : Keyed (t.add k) := by
  rw [Keyed, keys_add]
  split
  case isTrue => exact h
  case isFalse hk =>
    exact List.Nodup.append h (List.nodup_singleton k) (List.disjoint_singleton.2 hk)

theorem keyed_ofList (xs : List κ) : Keyed (ofList xs) := by
  induction xs using List.reverseRecOn with
  | nil => exact List.nodup_nil
  | append_singleton xs x ih =>
    rw [ofList_append_singleton]
    exact ih.add x

theorem total_add (k : κ) (t : Tally κ) : (t.add k).total = t.total + 1 := by
  induction t with
  | nil => rfl
  | cons f rest ih =>
    rw [add]
    split <;> simp only [total, List.foldr_cons] at ih ⊢ <;> omega

theorem total_ofList (xs : List κ) : (ofList xs).total = xs.length := by
  induction xs using List.reverseRecOn with
  | nil => rfl
  | append_singleton xs x ih =>
    rw [ofList_append_singleton, total_add, ih, List.length_append, List.length_singleton]

theorem lookup_cons (k j : κ) (n : Nat) (rest : Tally κ) :
    List.lookup k ((j, n) :: rest) = if k = j then some n else List.lookup k rest := by
  rw [List.lookup_cons]
  by_cases h : k = j
  · simp [h]
  · simp [h, beq_eq_false_iff_ne.2 h]

/-- Counting a thing raises its own count and leaves the others. -/
theorem lookup_add (t : Tally κ) (k j : κ) :
    (t.add k).lookup j = if j = k then some (t.count k + 1) else t.lookup j := by
  induction t with
  | nil =>
    rw [add, lookup_cons]
    rfl
  | cons f rest ih =>
    obtain ⟨i, n⟩ := f
    rw [add]
    split
    case isTrue hik =>
      rw [hik, lookup_cons, lookup_cons, count, lookup_cons, if_pos rfl]
      by_cases hjk : j = k
      · rw [if_pos hjk, if_pos hjk]
        rfl
      · rw [if_neg hjk, if_neg hjk, if_neg hjk]
    case isFalse hik =>
      rw [lookup_cons, lookup_cons, ih, count, count, lookup_cons, if_neg (Ne.symm hik)]
      by_cases hji : j = i
      · have hjk : j ≠ k := fun he => hik (hji.symm.trans he)
        rw [if_pos hji, if_pos hji, if_neg hjk]
      · rw [if_neg hji, if_neg hji]

/-- A thing that was never counted has no entry, every other one has as its count how often it was
counted. -/
theorem lookup_ofList (xs : List κ) (k : κ) :
    (ofList xs).lookup k = if xs.count k = 0 then none else some (xs.count k) := by
  induction xs using List.reverseRecOn with
  | nil => rfl
  | append_singleton xs x ih =>
    rw [ofList_append_singleton, lookup_add, List.count_append]
    by_cases hk : k = x
    · subst hk
      have hone : xs.count k + [k].count k ≠ 0 := by simp
      rw [if_pos rfl, if_neg hone, count, ih, List.count_singleton_self]
      split
      case isTrue h0 => rw [h0]; rfl
      case isFalse => rfl
    · have hzero : [x].count k = 0 := List.count_eq_zero.2 (by simpa using hk)
      rw [if_neg hk, ih, hzero, Nat.add_zero]

/-! ## Tallies told by their counts -/

theorem Keyed.mem_iff {t : Tally κ} (h : Keyed t) {k : κ} {n : Nat} :
    (k, n) ∈ t ↔ t.lookup k = some n := by
  induction t with
  | nil => simp
  | cons f rest ih =>
    obtain ⟨j, m⟩ := f
    obtain ⟨hj, hrest⟩ := List.nodup_cons.1 h
    rw [List.mem_cons, Prod.mk.injEq, lookup_cons]
    by_cases hkj : k = j
    · subst hkj
      have hnot : (k, n) ∉ rest := fun hmem => hj (List.mem_map.2 ⟨_, hmem, rfl⟩)
      simp [hnot, eq_comm]
    · simp [hkj, ih hrest]

theorem Keyed.perm_iff {s t : Tally κ} (hs : Keyed s) (ht : Keyed t) :
    s.Perm t ↔ ∀ k, s.lookup k = t.lookup k := by
  rw [List.perm_ext_iff_of_nodup hs.nodup ht.nodup]
  constructor
  · intro h k
    ext n
    rw [← hs.mem_iff, ← ht.mem_iff, h]
  · rintro h ⟨k, n⟩
    rw [hs.mem_iff, ht.mem_iff, h]

/-- Tallies are sorted to the same list exactly if they have the same counts. -/
theorem Keyed.sorted_eq_iff (hr : Function.Injective rank) {s t : Tally κ} (hs : Keyed s)
    (ht : Keyed t) : s.sorted rank = t.sorted rank ↔ ∀ k, s.lookup k = t.lookup k := by
  rw [← hs.perm_iff ht]
  constructor
  · intro h
    exact (s.sorted_perm rank).symm.trans (h ▸ t.sorted_perm rank)
  · exact ht.sorted_eq_of_perm hr

/-- A sorted tally, written out from its counts. -/
theorem Keyed.sorted_eq_map (hr : Function.Injective rank) {t : Tally κ} (h : Keyed t)
    {ks : List κ} (hks : ks.Pairwise fun j k => rank j < rank k) {f : κ → Nat}
    (hmem : ∀ k, k ∈ ks ↔ f k ≠ 0)
    (hf : ∀ k, t.lookup k = if f k = 0 then none else some (f k)) :
    t.sorted rank = ks.map fun k => (k, f k) := by
  have hmap : Ordered rank (ks.map fun k => (k, f k)) := List.pairwise_map.2 hks
  apply (h.ordered_sorted hr).eq_of_perm hmap
  refine (t.sorted_perm rank).trans ((List.perm_ext_iff_of_nodup h.nodup hmap.nodup).2 ?_)
  rintro ⟨k, n⟩
  rw [h.mem_iff, hf, List.mem_map]
  constructor
  · intro hn
    split at hn
    case isTrue => cases hn
    case isFalse h0 =>
      obtain rfl := Option.some.inj hn
      exact ⟨k, (hmem k).2 h0, rfl⟩
  · rintro ⟨j, hj, he⟩
    obtain ⟨rfl, rfl⟩ := Prod.mk.inj he
    exact if_neg ((hmem j).1 hj)

theorem mem_keys_ofList (xs : List κ) (k : κ) :
    k ∈ (ofList xs).map Prod.fst ↔ xs.count k ≠ 0 := by
  have hlookup := lookup_ofList xs k
  constructor
  · intro h h0
    obtain ⟨⟨j, n⟩, hj, rfl⟩ := List.mem_map.1 h
    rw [(keyed_ofList xs).mem_iff, hlookup, if_pos h0] at hj
    cases hj
  · intro h
    rw [if_neg h, ← (keyed_ofList xs).mem_iff] at hlookup
    exact List.mem_map.2 ⟨_, hlookup, rfl⟩

end TaggedHeap.Tally
