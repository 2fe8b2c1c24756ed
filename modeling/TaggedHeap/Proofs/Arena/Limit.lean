import TaggedHeap.Proofs.Arena.Frontier

/-!
# Words under a limit

Words need no alignment, so a request for words is charged these and nothing else. It keeps to the
limit if it succeeds, and of the ways in which it fails one is that it would exceed the limit.
-/

namespace TaggedHeap

/-- The first of two steps fails, or the second one from its answer. -/
theorem bind_eq_error_iff {α β : Type} {x : Except Fault α} {f : α → Except Fault β} {e : Fault} :
    x >>= f = .error e ↔ x = .error e ∨ ∃ a, x = .ok a ∧ f a = .error e := by
  cases x <;> simp [bind, Except.bind]

namespace Count

variable {a b n step : Nat} {e : Fault}

theorem eq_of_add_eq_error (h : add a b = .error e) : e = .violated .sumOverflow := by
  unfold add at h
  split at h
  case isTrue => cases h
  case isFalse => exact (Except.error.inj h).symm

theorem eq_of_roundUp_eq_error (h : roundUp n step = .error e) : e = .violated .sumOverflow := by
  unfold roundUp at h
  split at h
  case isTrue => cases h
  case isFalse => exact eq_of_add_eq_error h

end Count

theorem Request.eq_of_size_eq_error {r : Request} {e : Fault} (h : r.size = .error e) :
    e = .violated .productOverflow := by
  cases r with
  | words n => cases h
  | dwords n =>
    rw [size, Count.mul] at h
    split at h
    case isTrue => cases h
    case isFalse => exact (Except.error.inj h).symm

namespace Arena

variable {a b : Arena} {n x : Nat}

theorem charged_of_reserve_words (hn : n ≠ 0) (h : a.reserve (.words n) = .ok (x, b)) :
    b.allocated = a.allocated + n ∧ a.Allows n := by
  generalize hr : Request.words n = r at h
  cases reserves_of_ok h with
  | nothing he =>
    subst hr
    exact absurd (by simpa [Request.isEmpty] using he) hn
  | @inChunk start he hs hfit hl =>
    subst hr
    have hstart : a.cursor = start := by
      simpa [Count.roundUp, Request.alignment, Nat.mod_one] using hs
    subst hstart
    rw [Nat.sub_self, Nat.zero_add] at hl
    exact ⟨by simp [take, Request.wordCount], hl⟩
  | newChunk he hk hb hl =>
    subst hr
    obtain ⟨rfl, -⟩ := addChunk_eq_ok hb
    exact ⟨rfl, hl⟩

theorem exceeded_eq_some {padding size limit : Nat} (h : a.exceeded padding size = .ok (some limit)) :
    a.config.limit = some limit ∧ limit < a.allocated + padding + size := by
  unfold exceeded at h
  split at h
  case h_1 => cases h
  case h_2 l hl =>
    rw [bind_eq_ok_iff] at h
    obtain ⟨most, hmost, h⟩ := h
    rw [bind_eq_ok_iff] at h
    obtain ⟨total, htotal, h⟩ := h
    obtain ⟨-, rfl⟩ := Count.add_eq_ok_iff.1 hmost
    obtain ⟨-, rfl⟩ := Count.add_eq_ok_iff.1 htotal
    split at h
    case isFalse => cases h
    case isTrue hlt =>
      cases h
      exact ⟨hl, hlt⟩

theorem eq_of_exceeded_eq_error {padding size : Nat} {e : Fault}
    (h : a.exceeded padding size = .error e) : e = .violated .sumOverflow := by
  unfold exceeded at h
  split at h
  case h_1 => cases h
  case h_2 =>
    rcases bind_eq_error_iff.1 h with h | ⟨_, -, h⟩
    · exact Count.eq_of_add_eq_error h
    rcases bind_eq_error_iff.1 h with h | ⟨_, -, h⟩
    · exact Count.eq_of_add_eq_error h
    · cases h

theorem eq_of_planFor_eq_error {size alignment : Nat} {e : Fault}
    (h : a.planFor size alignment = .error e) : e = .violated .sumOverflow := by
  rcases bind_eq_error_iff.1 h with h | ⟨start, -, h⟩
  · exact Count.eq_of_roundUp_eq_error h
  rcases bind_eq_error_iff.1 h with h | ⟨stop, -, h⟩
  · exact Count.eq_of_add_eq_error h
  rcases bind_eq_error_iff.1 h with h | ⟨excess, -, h⟩
  · exact eq_of_exceeded_eq_error h
  cases excess with
  | some limit => cases h
  | none =>
    simp only at h
    split at h
    case isTrue => cases h
    case isFalse =>
      rcases bind_eq_error_iff.1 h with h | ⟨_, -, h⟩
      · exact Count.eq_of_roundUp_eq_error h
      · cases h

theorem addChunk_eq_error {capacity : Nat} {e : Fault} (h : a.addChunk capacity = .error e) :
    e = .violated .capacityOverflow ∨ e = .exhausted := by
  unfold addChunk at h
  split at h
  case isTrue => exact .inl (Except.error.inj h).symm
  case isFalse =>
    split at h
    case isTrue => cases h
    case isFalse => exact .inr (Except.error.inj h).symm

theorem planFor_eq_overLimit {limit size : Nat}
    (h : a.planFor n 1 = .ok (.overLimit limit size)) :
    size = n ∧ a.config.limit = some limit ∧ limit < a.allocated + n := by
  rw [planFor, bind_eq_ok_iff] at h
  obtain ⟨start, hs, h⟩ := h
  have hstart : a.cursor = start := by simpa [Count.roundUp, Nat.mod_one] using hs
  subst hstart
  rw [bind_eq_ok_iff] at h
  obtain ⟨stop, -, h⟩ := h
  rw [bind_eq_ok_iff] at h
  obtain ⟨excess, hex, h⟩ := h
  rw [Nat.sub_self, ite_self] at hex
  cases excess with
  | none =>
    simp only at h
    split at h
    case isTrue => cases h
    case isFalse =>
      obtain ⟨_, -, h⟩ := bind_eq_ok_iff.1 h
      cases h
  | some l =>
    cases h
    exact ⟨rfl, exceeded_eq_some hex⟩

/-- The ways in which a request for words fails. -/
theorem reserve_words_eq_error {e : Fault} (h : a.reserve (.words n) = .error e) :
    e = .violated .sumOverflow ∨ e = .violated .capacityOverflow ∨ e = .exhausted ∨
      e = .refused (.outOfMemory n) ∧
        ∃ limit, a.config.limit = some limit ∧ limit < a.allocated + n := by
  cases hn : n == 0 with
  | true =>
    rw [reserve_of_isEmpty (r := .words n) hn] at h
    cases h
  | false =>
    have hplan : a.plan (.words n) = a.planFor n 1 := by
      rw [plan, if_neg (by simpa [Request.isEmpty] using hn)]
      rfl
    rw [Arena.reserve, hplan] at h
    rcases bind_eq_error_iff.1 h with h | ⟨p, hp, h⟩
    · exact .inl (eq_of_planFor_eq_error h)
    cases p with
    | nothing | inChunk start size => cases h
    | newChunk capacity size =>
      rcases bind_eq_error_iff.1 h with h | ⟨_, -, h⟩
      · exact .inr ((addChunk_eq_error h).imp_right .inl)
      · cases h
    | overLimit limit size =>
      obtain ⟨rfl, hlimit, hlt⟩ := planFor_eq_overLimit hp
      exact .inr (.inr (.inr ⟨(Except.error.inj h).symm, limit, hlimit, hlt⟩))

theorem size_of_planFor_eq_overLimit {size alignment limit k : Nat}
    (h : a.planFor size alignment = .ok (.overLimit limit k)) : k = size := by
  obtain ⟨start, -, h⟩ := bind_eq_ok_iff.1 h
  obtain ⟨stop, -, h⟩ := bind_eq_ok_iff.1 h
  obtain ⟨excess, -, h⟩ := bind_eq_ok_iff.1 h
  cases excess with
  | some l =>
    cases h
    rfl
  | none =>
    simp only at h
    split at h
    case isTrue => cases h
    case isFalse =>
      obtain ⟨_, -, h⟩ := bind_eq_ok_iff.1 h
      cases h

/-- The ways in which a request fails, of words or of double words. -/
theorem reserve_eq_error {r : Request} {e : Fault} (h : a.reserve r = .error e) :
    e = .violated .sumOverflow ∨ e = .violated .productOverflow ∨
      e = .violated .capacityOverflow ∨ e = .exhausted ∨
        e = .refused (.outOfMemory r.wordCount) := by
  cases hr : r.isEmpty with
  | true =>
    rw [reserve_of_isEmpty hr] at h
    cases h
  | false =>
    rw [Arena.reserve, plan, if_neg (by simp [hr])] at h
    rcases bind_eq_error_iff.1 h with h | ⟨p, hp, h⟩
    · rcases bind_eq_error_iff.1 h with h | ⟨size, -, h⟩
      · exact .inr (.inl (Request.eq_of_size_eq_error h))
      · exact .inl (eq_of_planFor_eq_error h)
    obtain ⟨size, hsize, hp⟩ := bind_eq_ok_iff.1 hp
    obtain rfl := Request.size_eq_ok hsize
    cases p with
    | nothing | inChunk start size => cases h
    | newChunk capacity size =>
      rcases bind_eq_error_iff.1 h with h | ⟨_, -, h⟩
      · exact .inr (.inr ((addChunk_eq_error h).imp_right .inl))
      · cases h
    | overLimit limit size =>
      obtain rfl := size_of_planFor_eq_overLimit hp
      exact .inr (.inr (.inr (.inr (Except.error.inj h).symm)))

end Arena

end TaggedHeap
