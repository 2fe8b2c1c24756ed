import TaggedHeap.Proofs.Arena.Frontier

/-!
# Arenas without a limit

Without a limit, a request no larger than an object fails in two ways only. Either chunks of the
configured size cannot be made at all, and then there never was one and the fault is the same for
every arena of the configuration, or there is no room for another chunk.
-/

namespace TaggedHeap

/-- The most slots that a header gives an object. -/
def maxSlots : Nat := maxFields + 3

theorem Request.size_eq_ok_of_le {r : Request} (hn : r.wordCount ≤ maxSlots) :
    r.size = .ok r.wordCount := by
  cases r with
  | words n => rfl
  | dwords n =>
    refine Count.mul_eq_ok_iff.2 ⟨?_, rfl⟩
    simp only [wordCount, maxSlots, maxFields] at hn
    simp only [wordLimit]
    omega

theorem Count.roundUp_of_lt {n step : Nat} (hs : 0 < step) (h : n + step < wordLimit) :
    ∃ c, roundUp n step = .ok c := by
  unfold roundUp
  split
  case isTrue => exact ⟨n, rfl⟩
  case isFalse => exact ⟨_, add_eq_ok_iff.2 ⟨by omega, rfl⟩⟩

/-- The size of a chunk that is opened for a block of so many words. -/
def ArenaConfig.opening (c : ArenaConfig) (size : Nat) : Except Fault Nat := do
  let k ← Count.roundUp (max size c.chunkWords) 2
  if Arena.chunkByteLimit ≤ wordSize * k then .error (.violated .capacityOverflow) else return k

theorem ArenaConfig.opening_eq_ok {c : ArenaConfig} {size k : Nat} (h : c.opening size = .ok k) :
    Count.roundUp (max size c.chunkWords) 2 = .ok k ∧ wordSize * k < Arena.chunkByteLimit := by
  simp only [opening, bind, Except.bind, pure, Except.pure] at h
  cases hk : Count.roundUp (max size c.chunkWords) 2 with
  | error e => simp [hk] at h
  | ok j =>
    simp only [hk] at h
    split at h
    case isTrue => simp at h
    case isFalse hlt =>
      obtain rfl := Except.ok.inj h
      exact ⟨rfl, by omega⟩

theorem ArenaConfig.opens_of_opening {c : ArenaConfig} {size k : Nat} (h : c.opening size = .ok k) :
    c.Opens := by
  obtain ⟨hk, hlt⟩ := opening_eq_ok h
  obtain ⟨hle, -, heven⟩ := Count.roundUp_eq_ok (by decide) hk
  simp only [Opens, wordSize] at *
  omega

theorem ArenaConfig.Opens.opening {c : ArenaConfig} (h : c.Opens) {size : Nat}
    (hn : size ≤ maxSlots) : ∃ k, c.opening size = .ok k := by
  simp only [Opens, wordSize, Arena.chunkByteLimit] at h
  simp only [maxSlots, maxFields] at hn
  obtain ⟨k, hk⟩ := Count.roundUp_of_lt (n := max size c.chunkWords) Nat.two_pos
    (by simp only [wordLimit]; omega)
  obtain ⟨-, hlt, heven⟩ := Count.roundUp_eq_ok (by decide) hk
  refine ⟨k, ?_⟩
  rw [ArenaConfig.opening, hk]
  exact if_neg (by simp only [Arena.chunkByteLimit, wordSize]; omega)

namespace Arena

section Small

variable {a : Arena} (ha : a.Valid) (hl : a.config.limit = none) {r : Request}
  (hr : r.isEmpty = false) (hn : r.wordCount ≤ maxSlots)
include ha hl hr hn

/-- The block is taken from the last chunk or opens a new one. -/
theorem Valid.reserve_of_le :
    ∃ start, a.reserve r =
      if start + r.wordCount ≤ a.capacity then .ok (a.take start r.wordCount)
      else (a.config.opening r.wordCount).bind fun k =>
        if a.memory.hasRoom k then
          .ok (Arena.take { a with memory := a.memory.grow k, cursor := 0 } 0 r.wordCount)
        else .error .exhausted := by
  have hcap : wordSize * a.capacity ≤ a.memory.stop := by
    have := a.addressInLast_add 0
    simp only [wordSize] at *
    omega
  have hcursor := ha.cursor_le
  have hstop := ha.stop_le
  simp only [maxSlots, maxFields, wordSize, wordLimit] at hn hcap hstop
  have hal : r.alignment ≤ 2 := by cases r <;> simp [Request.alignment]
  obtain ⟨start, hs⟩ := Count.roundUp_of_lt (n := a.cursor) r.alignment_pos
    (by simp only [wordLimit]; omega)
  obtain ⟨-, hlt, -⟩ := Count.roundUp_eq_ok r.alignment_pos hs
  have hadd : Count.add start r.wordCount = .ok (start + r.wordCount) :=
    Count.add_eq_ok_iff.2 ⟨by simp only [wordLimit]; omega, rfl⟩
  refine ⟨start, ?_⟩
  have hsize := Request.size_eq_ok_of_le hn
  simp only [Arena.reserve, plan, hr, hsize, planFor, hs, hadd, exceeded_of_limit_eq_none hl, bind,
    Except.bind, pure, Except.pure, Bool.false_eq_true, if_false]
  by_cases hfit : start + r.wordCount ≤ a.capacity
  · simp only [hfit, decide_true, if_true]
  · simp only [hfit, decide_false, Bool.false_eq_true, if_false, ArenaConfig.opening, bind,
      Except.bind, pure, Except.pure]
    cases Count.roundUp (max r.wordCount a.config.chunkWords) 2 with
    | error e => rfl
    | ok k =>
      simp only [Arena.addChunk]
      by_cases hk : chunkByteLimit ≤ wordSize * k
      · simp only [hk, if_true]
      · by_cases hroom : a.memory.hasRoom k = true
        · simp only [hk, hroom, if_true, if_false]
        · simp only [hk, hroom, if_false, Bool.false_eq_true]

/-- A chunk can be made and the request succeeds or there is no room, or none can be made. -/
theorem Valid.reserve_cases :
    (∃ k, a.config.opening r.wordCount = .ok k ∧
      ((∃ x b, a.reserve r = .ok (x, b)) ∨ a.reserve r = .error .exhausted)) ∨
    ∃ e, a.config.opening r.wordCount = .error e ∧ a.reserve r = .error e ∧
      a.memory.chunks = [] := by
  obtain ⟨start, hres⟩ := ha.reserve_of_le hl hr hn
  cases hk : a.config.opening r.wordCount with
  | ok k =>
    refine .inl ⟨k, rfl, ?_⟩
    rw [hres, hk]
    split
    case isTrue => exact .inl ⟨_, _, rfl⟩
    case isFalse =>
      by_cases hroom : a.memory.hasRoom k = true
      · exact .inl ⟨_, _, if_pos hroom⟩
      · exact .inr (if_neg hroom)
  | error e =>
    have hnil : a.memory.chunks = [] := by
      by_cases he : a.memory.chunks = []
      · exact he
      · obtain ⟨k, hok⟩ := (ha.opens he).opening hn
        rw [hk] at hok
        cases hok
    refine .inr ⟨e, rfl, ?_, hnil⟩
    have hcap : a.capacity = 0 := by simp [capacity, hnil]
    have hpos := Request.wordCount_pos hr
    rw [hres, hk, if_neg (by omega)]
    rfl

end Small

/-- Words that the last chunk has room for are handed out from it. -/
theorem Valid.exists_reserve_of_fits {a : Arena} (ha : a.Valid) (hl : a.config.limit = none)
    {n : Nat} (hn : 0 < n) (hfit : a.cursor + n ≤ a.capacity) :
    ∃ x b, a.reserve (.words n) = .ok (x, b) := by
  have hstop := a.addressInLast_add 0
  have hle := ha.stop_le
  have hstart : Count.roundUp a.cursor 1 = .ok a.cursor := if_pos (Nat.mod_one _)
  have hadd : Count.add a.cursor n = .ok (a.cursor + n) := by
    refine Count.add_eq_ok_iff.2 ⟨?_, rfl⟩
    simp only [wordLimit, wordSize] at *
    omega
  have hempty : (Request.words n).isEmpty = false := beq_eq_false_iff_ne.2 (Nat.ne_of_gt hn)
  have hplan : a.plan (.words n) = .ok (.inChunk a.cursor n) := by
    simp only [plan, hempty, Request.size, Request.alignment, planFor, hstart, hadd, hfit,
      exceeded_of_limit_eq_none hl, decide_true, bind, Except.bind, pure, Except.pure,
      Bool.false_eq_true, if_true, if_false]
  exact ⟨_, _, by rw [Arena.reserve, hplan]; rfl⟩

end Arena

end TaggedHeap
