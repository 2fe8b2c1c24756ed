import TaggedHeap.Proofs.Arena.Failure
import TaggedHeap.Proofs.Arena.Limit
import TaggedHeap.Proofs.Arena.Unlimited

/-!
# Requests near the largest number

The limit is compared with a sum, and before that the end of the block with the capacity of the last
chunk. Both sums are checked, so a request for so many words that one of them does not fit a machine
word is a violation where it ought to be refused. A request that keeps to the limit is a violation
only if it needs a chunk that is too large to be made.
-/

namespace TaggedHeap

theorem Request.size_eq_ok_of_lt {r : Request} (h : r.wordCount < wordLimit) :
    r.size = .ok r.wordCount := by
  cases r with
  | words n => rfl
  | dwords n => exact Count.mul_eq_ok_iff.2 ⟨h, rfl⟩

theorem Request.skipped_le_one (r : Request) (cursor : Nat) : r.skipped cursor ≤ 1 := by
  cases r with
  | words n => exact Nat.zero_le 1
  | dwords n =>
    simp only [skipped]
    split <;> omega

namespace ArenaConfig

variable {c : ArenaConfig} {size : Nat}

theorem opening_of_lt (h : wordSize * c.chunkFor size < Arena.chunkByteLimit) :
    c.opening size = .ok (c.chunkFor size) := by
  have hk : Count.roundUp (max size c.chunkWords) 2 = .ok (c.chunkFor size) := by
    simp only [chunkFor, wordSize, Arena.chunkByteLimit] at *
    exact (Count.roundUp_two_eq_ok_iff (by simp only [wordLimit]; omega)).2
      ⟨by simp only [wordLimit]; omega, rfl⟩
  rw [opening, hk]
  exact if_neg (Nat.not_le.2 h)

theorem opening_of_le (h : Arena.chunkByteLimit ≤ wordSize * c.chunkFor size) :
    ∃ v, c.opening size = .error (.violated v) := by
  cases hk : Count.roundUp (max size c.chunkWords) 2 with
  | error e =>
    obtain rfl := Count.eq_of_roundUp_eq_error hk
    exact ⟨_, by rw [opening, hk]; rfl⟩
  | ok k =>
    obtain rfl := eq_chunkFor_of_roundUp hk
    exact ⟨_, by rw [opening, hk]; exact if_pos h⟩

end ArenaConfig

namespace Arena

variable {a b : Arena} {r : Request}

/-- The words in front of the cursor were handed out. -/
def CursorCharged (a : Arena) : Prop := a.cursor ≤ a.allocated

theorem cursorCharged_new (config : ArenaConfig) : CursorCharged { config } := Nat.le_refl 0

theorem CursorCharged.reserve {x : Nat} (ha : a.CursorCharged) (h : a.reserve r = .ok (x, b)) :
    b.CursorCharged := by
  cases reserves_of_ok h with
  | nothing => exact ha
  | inChunk hr hs hfit hl =>
    obtain ⟨hle, -, -⟩ := Count.roundUp_eq_ok r.alignment_pos hs
    simp only [CursorCharged, take] at *
    omega
  | newChunk hr hk hc hl =>
    obtain ⟨rfl, -⟩ := addChunk_eq_ok hc
    simp only [CursorCharged, take]
    omega

/-- The first word behind the cursor at which the block may start. -/
def startFor (a : Arena) (r : Request) : Nat := a.cursor + r.skipped a.cursor

/-- The words skipped if the block is placed in the last chunk, and none if it opens another. -/
def paddingFor (a : Arena) (r : Request) : Nat :=
  if a.startFor r + r.wordCount ≤ a.capacity then r.skipped a.cursor else 0

theorem paddingFor_of_fits (h : a.startFor r + r.wordCount ≤ a.capacity) :
    a.paddingFor r = r.skipped a.cursor :=
  if_pos h

theorem paddingFor_of_not_fits (h : ¬ a.startFor r + r.wordCount ≤ a.capacity) :
    a.paddingFor r = 0 :=
  if_neg h

/-- The block behind the cursor if the last chunk has room for it, or the first of a new chunk. -/
def provide (a : Arena) (r : Request) : Except Fault (Nat × Arena) :=
  if a.startFor r + r.wordCount ≤ a.capacity then .ok (a.take (a.startFor r) r.wordCount)
  else do
    let k ← a.config.opening r.wordCount
    if a.memory.hasRoom k then
      return Arena.take { a with memory := a.memory.grow k, cursor := 0 } 0 r.wordCount
    else .error .exhausted

theorem provide_violates_iff (a : Arena) (r : Request) :
    (∃ v, a.provide r = .error (.violated v)) ↔
      a.capacity < a.startFor r + r.wordCount ∧
        chunkByteLimit ≤ wordSize * a.config.chunkFor r.wordCount := by
  by_cases hfit : a.startFor r + r.wordCount ≤ a.capacity
  case pos =>
    refine iff_of_false ?_ (by omega)
    rintro ⟨v, hv⟩
    rw [provide, if_pos hfit] at hv
    cases hv
  case neg =>
    rw [provide, if_neg hfit]
    by_cases hbig : chunkByteLimit ≤ wordSize * a.config.chunkFor r.wordCount
    · obtain ⟨v, hv⟩ := ArenaConfig.opening_of_le hbig
      exact iff_of_true ⟨v, by rw [hv]; rfl⟩ ⟨by omega, hbig⟩
    · rw [ArenaConfig.opening_of_lt (Nat.not_le.1 hbig)]
      refine iff_of_false ?_ (by omega)
      rintro ⟨v, hv⟩
      simp only [bind, Except.bind, pure, Except.pure] at hv
      split at hv <;> cases hv

/-! ## The sum that the limit is compared with -/

section Exceeded

variable {limit padding size : Nat} (hl : a.config.limit = some limit)
include hl

theorem exceeded_of_overflow (h : wordLimit ≤ a.allocated + padding + size) :
    a.exceeded padding size = .error (.violated .sumOverflow) := by
  simp only [exceeded, hl, Count.add]
  split
  case isTrue => simp only [bind, Except.bind, if_neg (Nat.not_lt.2 h)]
  case isFalse => rfl

theorem exceeded_of_lt (h : a.allocated + padding + size < wordLimit) :
    a.exceeded padding size =
      .ok (if limit < a.allocated + padding + size then some limit else none) := by
  have hadd : Count.add a.allocated padding = .ok (a.allocated + padding) :=
    Count.add_eq_ok_iff.2 ⟨by omega, rfl⟩
  have hadd' : Count.add (a.allocated + padding) size = .ok (a.allocated + padding + size) :=
    Count.add_eq_ok_iff.2 ⟨h, rfl⟩
  simp only [exceeded, hl, hadd, hadd', bind, Except.bind]
  rfl

end Exceeded

/-! ## What a request comes to -/

/-- So many double words that their number of words does not fit. -/
theorem reserve_of_size_overflow {n : Nat} (hr : (Request.dwords n).isEmpty = false)
    (h : wordLimit ≤ n * 2) : a.reserve (.dwords n) = .error (.violated .productOverflow) := by
  simp only [Arena.reserve, plan, hr, Request.size, Count.mul, if_neg (Nat.not_lt.2 h), bind,
    Except.bind, Bool.false_eq_true, if_false]

namespace Balanced

variable (ha : a.Balanced) (hr : r.isEmpty = false)
include ha hr

theorem roundUp_cursor : Count.roundUp a.cursor r.alignment = .ok (a.startFor r) := by
  have hcursor := Nat.le_trans ha.cursor_le a.capacity_le_extent
  have hstop := ha.stop_le
  have hal : r.alignment ≤ 2 := by cases r <;> simp [Request.alignment]
  simp only [Memory.stop, Memory.origin, wordSize, wordLimit] at hstop
  obtain ⟨start, hs⟩ := Count.roundUp_of_lt (n := a.cursor) r.alignment_pos
    (by simp only [wordLimit]; omega)
  obtain ⟨hle, -, -⟩ := Count.roundUp_eq_ok r.alignment_pos hs
  rw [startFor, hs, Request.skipped_eq hr hs, Nat.add_sub_cancel' hle]

/-- A block that would end behind the largest number. -/
theorem reserve_of_stop_overflow (hn : r.wordCount < wordLimit)
    (h : wordLimit ≤ a.startFor r + r.wordCount) :
    a.reserve r = .error (.violated .sumOverflow) := by
  simp only [Arena.reserve, plan, hr, Request.size_eq_ok_of_lt hn, planFor, ha.roundUp_cursor hr,
    Count.add, if_neg (Nat.not_lt.2 h), bind, Except.bind, Bool.false_eq_true, if_false]

/-- Any other block is held against the limit before it is provided. -/
theorem reserve_eq (h : a.startFor r + r.wordCount < wordLimit) :
    a.reserve r = (do
      match ← a.exceeded (a.paddingFor r) r.wordCount with
      | some _ => .error (.refused (.outOfMemory r.wordCount))
      | none => a.provide r) := by
  have hadd : Count.add (a.startFor r) r.wordCount = .ok (a.startFor r + r.wordCount) :=
    Count.add_eq_ok_iff.2 ⟨h, rfl⟩
  have hskip : a.startFor r - a.cursor = r.skipped a.cursor := Nat.add_sub_cancel_left _ _
  have hsize := Request.size_eq_ok_of_lt (r := r) (by omega)
  simp only [Arena.reserve, plan, hr, hsize, planFor, ha.roundUp_cursor hr, hadd, hskip, bind,
    Except.bind, pure, Except.pure, decide_eq_true_eq, paddingFor, provide, Bool.false_eq_true,
    if_false]
  by_cases hfit : a.startFor r + r.wordCount ≤ a.capacity
  case pos =>
    simp only [hfit, if_true]
    cases a.exceeded (r.skipped a.cursor) r.wordCount with
    | error e => rfl
    | ok excess => cases excess <;> rfl
  case neg =>
    simp only [hfit, if_false]
    cases a.exceeded 0 r.wordCount with
    | error e => rfl
    | ok excess =>
      cases excess with
      | some limit => rfl
      | none =>
        simp only [ArenaConfig.opening, bind, Except.bind, pure, Except.pure]
        cases Count.roundUp (max r.wordCount a.config.chunkWords) 2 with
        | error e => rfl
        | ok k =>
          simp only [Arena.addChunk]
          by_cases hk : chunkByteLimit ≤ wordSize * k
          · simp only [hk, if_true]
          · by_cases hroom : a.memory.hasRoom k = true
            · simp only [hk, hroom, if_true, if_false]
            · simp only [hk, hroom, if_false, Bool.false_eq_true]

omit hr in
/-- The words that a block of the last chunk takes are among those there are. -/
theorem total_lt_of_fits (h : a.startFor r + r.wordCount ≤ a.capacity) :
    a.allocated + r.skipped a.cursor + r.wordCount < wordLimit := by
  have hle := ha.allocated_le
  have hlt := ha.extent_lt
  simp only [startFor] at h
  omega

section Beyond

variable {limit : Nat} (hl : a.config.limit = some limit)
include hl

theorem reserve_of_beyond (hlt : limit < a.allocated + r.wordCount)
    (htotal : a.allocated + r.wordCount < wordLimit)
    (hstop : a.startFor r + r.wordCount < wordLimit) :
    a.reserve r = .error (.refused (.outOfMemory r.wordCount)) := by
  have hsum : a.allocated + a.paddingFor r + r.wordCount < wordLimit := by
    by_cases hfit : a.startFor r + r.wordCount ≤ a.capacity
    · rw [paddingFor_of_fits hfit]
      exact ha.total_lt_of_fits hfit
    · rw [paddingFor_of_not_fits hfit]
      exact htotal
  rw [ha.reserve_eq hr hstop, exceeded_of_lt hl hsum, if_pos (by omega)]
  rfl

theorem reserve_of_overflow (hn : r.wordCount < wordLimit)
    (h : wordLimit ≤ a.allocated + r.wordCount ∨ wordLimit ≤ a.startFor r + r.wordCount) :
    a.reserve r = .error (.violated .sumOverflow) := by
  by_cases hstop : wordLimit ≤ a.startFor r + r.wordCount
  case pos => exact ha.reserve_of_stop_overflow hr hn hstop
  have hsum : wordLimit ≤ a.allocated + a.paddingFor r + r.wordCount := by omega
  rw [ha.reserve_eq hr (Nat.not_le.1 hstop), exceeded_of_overflow hl hsum]
  rfl

end Beyond

omit hr in
/-- A block that would end behind the largest number is too large for a chunk as well. -/
theorem chunkByteLimit_le_of_stop_overflow (hc : a.CursorCharged)
    (hstop : wordLimit ≤ a.startFor r + r.wordCount) :
    chunkByteLimit ≤ wordSize * a.config.chunkFor r.wordCount := by
  have hskip := r.skipped_le_one a.cursor
  have hle := ha.allocated_le_extent
  have hmem := ha.stop_le
  simp only [CursorCharged, startFor, Memory.stop, Memory.origin, ArenaConfig.chunkFor, wordSize,
    wordLimit, chunkByteLimit] at *
  omega

/-- A request that keeps to the limit is a violation only if it needs a chunk that cannot be made. -/
theorem reserve_within_violates_iff {limit : Nat} (hl : a.config.limit = some limit)
    (hlim : limit < wordLimit) (hc : a.CursorCharged) (hle : a.allocated + r.wordCount ≤ limit) :
    (∃ v, a.reserve r = .error (.violated v)) ↔
      a.capacity < a.startFor r + r.wordCount ∧
        chunkByteLimit ≤ wordSize * a.config.chunkFor r.wordCount := by
  have hcap := Nat.lt_of_le_of_lt a.capacity_le_extent ha.extent_lt
  by_cases hstop : a.startFor r + r.wordCount < wordLimit
  case neg =>
    rw [ha.reserve_of_stop_overflow hr (by omega) (by omega)]
    exact iff_of_true ⟨_, rfl⟩
      ⟨by omega, ha.chunkByteLimit_le_of_stop_overflow hc (Nat.not_lt.1 hstop)⟩
  rw [ha.reserve_eq hr hstop]
  by_cases hfit : a.startFor r + r.wordCount ≤ a.capacity
  case pos =>
    have hsum := ha.total_lt_of_fits hfit
    rw [paddingFor_of_fits hfit, exceeded_of_lt hl hsum]
    split
    case isTrue =>
      refine iff_of_false ?_ (by omega)
      rintro ⟨v, hv⟩
      cases hv
    case isFalse => exact a.provide_violates_iff r
  case neg =>
    rw [paddingFor_of_not_fits hfit, exceeded_of_lt hl (by omega), if_neg (by omega)]
    exact a.provide_violates_iff r

end Balanced

end Arena

namespace Heap

theorem answer_eq {h : Heap} (hd : h.discipline = .plain) (r : Request) :
    (h.exchange r).answer = (h.arena.reserve r).map Prod.fst := by
  rw [exchange_eq hd]
  cases h.arena.reserve r <;> rfl

theorem cursorCharged_step {h : Heap} (hd : h.discipline = .plain) (hc : h.arena.CursorCharged)
    (e : Event) : (h.step e).arena.CursorCharged := by
  cases e with
  | request r =>
    rw [step, serve_eq hd]
    cases hr : h.arena.reserve r with
    | error e => exact hc
    | ok answer => exact hc.reserve hr
  | store address w =>
    rw [step]
    split <;> exact hc
  | withRoots roots => exact hc

theorem cursorCharged_follow {h : Heap} (hd : h.discipline = .plain) (hc : h.arena.CursorCharged)
    (es : List Event) : (h.follow es).arena.CursorCharged := by
  induction es generalizing h with
  | nil => exact hc
  | cons e es ih => exact ih (step_plain hd e) (cursorCharged_step hd hc e)

/-- What a request of a new arena with a limit comes to, after any number of events. One that
exceeds the limit is refused if the sum of all words fits a machine word, and for double words also
twice their number and the end of their block; otherwise it is a violation. One that keeps to the
limit is a violation exactly if it needs a chunk that has too many bytes. -/
theorem answers_near_limit (chunkWords limit : Nat) (roots : Roots) (es : List Event) :
    let start : Heap := { arena := { config := { chunkWords, limit := some limit } }, roots }
    let h := start.follow es
    let a := h.arena
    (∀ n, 0 < n → n < wordLimit → limit < a.allocated + n →
      (h.exchange (.words n)).answer =
        if a.allocated + n < wordLimit then .error (.refused (.outOfMemory n))
        else .error (.violated .sumOverflow)) ∧
    (∀ n, 0 < n → n < wordLimit → limit < a.allocated + n * 2 →
      (h.exchange (.dwords n)).answer =
        if wordLimit ≤ n * 2 then .error (.violated .productOverflow)
        else if a.allocated + n * 2 < wordLimit ∧ a.startFor (.dwords n) + n * 2 < wordLimit then
          .error (.refused (.outOfMemory (n * 2)))
        else .error (.violated .sumOverflow)) ∧
    ∀ r, r.isEmpty = false → limit < wordLimit → a.allocated + r.wordCount ≤ limit →
      ((∃ v, (h.exchange r).answer = .error (.violated v)) ↔
        a.capacity < a.startFor r + r.wordCount ∧
          Arena.chunkByteLimit ≤ wordSize * a.config.chunkFor r.wordCount) := by
  intro start h a
  have hacc : start.Accounted (start.exchanges es) h :=
    accounted_follow rfl (Arena.balanced_new _) es
  have ha : a.Balanced := hacc.balanced
  have hl : a.config.limit = some limit := congrArg ArenaConfig.limit hacc.config_eq
  have hc : a.CursorCharged := cursorCharged_follow rfl (Arena.cursorCharged_new _) es
  have hd : h.discipline = .plain := follow_plain rfl es
  refine ⟨fun n hpos hn hlt => ?_, fun n hpos hn hlt => ?_, fun r hr hlim hle => ?_⟩
  · have hr : (Request.words n).isEmpty = false := beq_eq_false_iff_ne.2 (Nat.ne_of_gt hpos)
    -- Words are not aligned, so the end of the block is no more than all words.
    have hstop : a.startFor (.words n) + n ≤ a.allocated + n := Nat.add_le_add_right hc n
    rw [answer_eq hd]
    split
    case isTrue htotal =>
      rw [ha.reserve_of_beyond hr hl hlt htotal (Nat.lt_of_le_of_lt hstop htotal)]
      rfl
    case isFalse htotal =>
      rw [ha.reserve_of_overflow hr hl hn (.inl (Nat.not_lt.1 htotal))]
      rfl
  · have hr : (Request.dwords n).isEmpty = false := beq_eq_false_iff_ne.2 (Nat.ne_of_gt hpos)
    rw [answer_eq hd]
    split
    case isTrue htwice =>
      rw [Arena.reserve_of_size_overflow hr htwice]
      rfl
    case isFalse htwice =>
      split
      case isTrue hsums =>
        rw [ha.reserve_of_beyond hr hl hlt hsums.1 hsums.2]
        rfl
      case isFalse hsums =>
        have hsum : wordLimit ≤ a.allocated + n * 2 ∨
            wordLimit ≤ a.startFor (.dwords n) + n * 2 := by
          omega
        rw [ha.reserve_of_overflow hr hl (Nat.not_le.1 htwice) hsum]
        rfl
  · rw [← ha.reserve_within_violates_iff hr hl hlim hc hle, answer_eq hd]
    cases a.reserve r <;> simp [Except.map]

/-- One word beside as many words as a machine word can number is a violation, and beside as many as
the limit is refused. -/
theorem answers_near_limit_ten :
    let start : Heap := { arena := { config := { chunkWords := 16, limit := some 10 } } }
    let h := start.follow [.request (.words 1)]
    (h.exchange (.words 18446744073709551615)).answer = .error (.violated .sumOverflow) ∧
    (h.exchange (.words 10)).answer = .error (.refused (.outOfMemory 10)) ∧
    (h.exchange (.dwords 9223372036854775807)).answer = .error (.violated .sumOverflow) ∧
    (h.exchange (.dwords 9223372036854775808)).answer = .error (.violated .productOverflow) ∧
    ¬ ∃ v, (h.exchange (.words 9)).answer = .error (.violated v) := by
  intro start h
  obtain ⟨hwords, hdwords, hwithin⟩ := answers_near_limit 16 10 [] [.request (.words 1)]
  refine ⟨?_, ?_, ?_, ?_, ?_⟩
  · exact (hwords _ (by decide) (by decide) (by decide +kernel)).trans (if_neg (by decide +kernel))
  · exact (hwords _ (by decide) (by decide) (by decide +kernel)).trans (if_pos (by decide +kernel))
  · exact ((hdwords _ (by decide) (by decide) (by decide +kernel)).trans (if_neg (by decide))).trans
      (if_neg (by decide +kernel))
  · exact (hdwords _ (by decide) (by decide) (by decide +kernel)).trans (if_pos (by decide))
  · rw [hwithin _ rfl (by decide) (by decide +kernel)]
    decide +kernel

end Heap

end TaggedHeap
