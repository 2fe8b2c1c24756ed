import TaggedHeap.Arena
import TaggedHeap.Proofs.Memory.Blocks

/-!
# The frontier of an arena

The frontier is the address of the first word that was not handed out in the last chunk. Blocks
begin at the frontier or behind it and move it to their end, and a new chunk lies behind all others,
so the frontier only ever rises. Behind it memory is zero. This is all that proofs about what memory
holds need to know of cursors and chunks.
-/

namespace TaggedHeap

namespace Request

/-- The words of the block that is asked for. -/
def wordCount : Request → Nat
  | .words n => n
  | .dwords n => n * 2

theorem size_eq_ok {r : Request} {n : Nat} (h : r.size = .ok n) : n = r.wordCount := by
  cases r with
  | words k => exact (Except.ok.inj h).symm
  | dwords k => exact (Count.mul_eq_ok_iff.1 h).2

theorem alignment_pos (r : Request) : 0 < r.alignment := by
  cases r <;> simp [alignment]

theorem wordCount_pos {r : Request} (h : r.isEmpty = false) : 0 < r.wordCount := by
  cases r <;> simp [isEmpty, wordCount] at * <;> omega

end Request

theorem Count.roundUp_eq_ok {n step c : Nat} (hs : 0 < step) (h : Count.roundUp n step = .ok c) :
    n ≤ c ∧ c < n + step ∧ c % step = 0 := by
  have hm := Nat.mod_lt n hs
  unfold Count.roundUp at h
  split at h
  case isTrue he =>
    obtain rfl := Except.ok.inj h
    exact ⟨Nat.le_refl _, by omega, he⟩
  case isFalse he =>
    obtain ⟨-, rfl⟩ := Count.add_eq_ok_iff.1 h
    refine ⟨by omega, by omega, ?_⟩
    have hd : n + (step - n % step) = step * (n / step + 1) := by
      have := Nat.div_add_mod n step
      rw [Nat.mul_add, Nat.mul_one]
      omega
    rw [hd, Nat.mul_mod_right]

namespace Memory

theorem wordsIn_take_last (cs : List (Array Word)) :
    wordsIn (cs.take (cs.length - 1)) + (cs.getLast?.map Array.size).getD 0 = wordsIn cs := by
  rcases List.eq_nil_or_concat cs with rfl | ⟨ds, d, rfl⟩
  · rfl
  · simp [wordsIn_append, wordsIn]

theorem wordsIn_even {cs : List (Array Word)} (h : ∀ c ∈ cs, c.size % 2 = 0) :
    wordsIn cs % 2 = 0 := by
  induction cs with
  | nil => rfl
  | cons c cs ih =>
    have hc := h c List.mem_cons_self
    have hcs := ih fun d hd => h d (List.mem_cons_of_mem c hd)
    simp only [wordsIn]
    omega

end Memory

/-- Chunks of the configured size are small enough to be made. -/
def ArenaConfig.Opens (c : ArenaConfig) : Prop :=
  wordSize * (c.chunkWords + c.chunkWords % 2) < Arena.chunkByteLimit

namespace Arena

/-- The address of the first word that was not handed out. -/
def frontier (a : Arena) : Nat := a.addressInLast a.cursor

/-- What holds of every arena in use: the cursor stays in the last chunk, chunks are whole double
words and fit the address space, and nothing was written behind the frontier. -/
structure Valid (a : Arena) : Prop where
  cursor_le : a.cursor ≤ a.capacity
  even : ∀ c ∈ a.memory.chunks, c.size % 2 = 0
  stop_le : a.memory.stop ≤ wordLimit
  opens : a.memory.chunks ≠ [] → a.config.Opens
  fresh : ∀ x w, a.frontier ≤ x → a.memory.read x = .ok w → w = Word.zero

theorem addressInLast_add (a : Arena) (w : Nat) :
    a.addressInLast w + wordSize * a.capacity = a.memory.stop + wordSize * w := by
  have h := Memory.wordsIn_take_last a.memory.chunks
  simp only [addressInLast, Memory.address, capacity, Memory.stop, Memory.extent, wordSize] at *
  omega

theorem origin_le_addressInLast (a : Arena) (w : Nat) :
    Memory.origin ≤ a.addressInLast w ∧ a.addressInLast w % wordSize = 0 := by
  simp only [addressInLast, Memory.address, wordSize, Memory.origin]
  omega

section Sizes

variable {a : Arena} {m : Memory} (hs : m.sizes = a.memory.sizes)
include hs

theorem frontier_congr : ({ a with memory := m } : Arena).frontier = a.frontier := by
  have hlen : m.chunks.length = a.memory.chunks.length := by
    simpa [Memory.sizes] using congrArg List.length hs
  simp only [frontier, addressInLast, hlen, Memory.address_congr hs]

theorem capacity_congr : ({ a with memory := m } : Arena).capacity = a.capacity := by
  have hlast := congrArg List.getLast? hs
  simp only [Memory.sizes, List.getLast?_map] at hlast
  simp only [capacity, hlast]

end Sizes

/-- All chunks are whole double words. -/
def Even (a : Arena) : Prop := ∀ c ∈ a.memory.chunks, c.size % 2 = 0

namespace Even

variable {a : Arena} (ha : a.Even)
include ha

theorem of_sizes_eq {m : Memory} (hs : m.sizes = a.memory.sizes) : Even { a with memory := m } := by
  intro c hc
  have hsize : c.size ∈ a.memory.sizes := hs ▸ List.mem_map_of_mem hc
  obtain ⟨d, hd, hdc⟩ := List.mem_map.1 hsize
  rw [← hdc]
  exact ha d hd

theorem addressInLast_aligned {r : Request} {w : Nat} (hw : w % r.alignment = 0) :
    a.addressInLast w % (wordSize * r.alignment) = 0 := by
  have h : Memory.wordsIn (a.memory.chunks.take (a.memory.chunks.length - 1)) % 2 = 0 :=
    Memory.wordsIn_even fun c hc => ha c (List.mem_of_mem_take hc)
  cases r <;> simp only [addressInLast, Memory.address, Request.alignment, wordSize,
    Memory.origin] at * <;> omega

end Even

theorem frontier_le_stop_of_le {a : Arena} (hc : a.cursor ≤ a.capacity) :
    a.frontier ≤ a.memory.stop := by
  have h := a.addressInLast_add a.cursor
  simp only [frontier, wordSize] at *
  omega

theorem Valid.frontier_le_stop {a : Arena} (ha : a.Valid) : a.frontier ≤ a.memory.stop :=
  frontier_le_stop_of_le ha.cursor_le

theorem valid_new (config : ArenaConfig) : Valid { config } := by
  refine ⟨Nat.le_refl _, by simp, ?_, by simp, fun x w _ h => ?_⟩
  · simp [Memory.stop, Memory.extent, Memory.wordsIn, Memory.origin, wordLimit]
  · obtain ⟨-, -, hw⟩ := Memory.read_eq_ok_iff_words.1 h
    simp [Memory.words] at hw

/-! ## What a request leads to -/

/-- The arena `b` has handed out `n` words at the address `x` that `a` had not. -/
structure Grants (a : Arena) (x n : Nat) (b : Arena) : Prop where
  frontier_le : a.frontier ≤ x
  frontier_eq : b.frontier = x + wordSize * n
  config_eq : b.config = a.config
  memory_eq : b.memory = a.memory ∨ ∃ k, b.memory = a.memory.grow k
  holds : b.memory.Holds x (List.replicate n Word.zero)
  inLast : ∃ start, x = b.addressInLast start ∧ start + n ≤ b.capacity

@[simp] theorem take_memory (a : Arena) (start size : Nat) :
    (a.take start size).2.memory = a.memory := rfl

theorem frontier_take (a : Arena) (start size : Nat) :
    (a.take start size).2.frontier = a.addressInLast start + wordSize * size := by
  simp only [frontier, take, addressInLast, Memory.address, wordSize]
  omega

theorem Valid.take {a : Arena} (ha : a.Valid) {start size : Nat} (hs : a.cursor ≤ start)
    (hfit : start + size ≤ a.capacity) :
    a.Grants (a.addressInLast start) size (a.take start size).2 ∧
      (a.take start size).2.Valid := by
  have hstart := a.addressInLast_add start
  have hcursor := a.addressInLast_add a.cursor
  have hle : a.frontier ≤ a.addressInLast start := by
    simp only [frontier, wordSize] at *
    omega
  obtain ⟨hlow, hal⟩ := a.origin_le_addressInLast start
  refine ⟨⟨hle, a.frontier_take start size, rfl, .inl rfl, ?_, start, rfl, hfit⟩, ?_⟩
  · intro i w hw
    obtain ⟨hi, rfl⟩ := List.getElem?_eq_some_iff.1 hw
    rw [List.length_replicate] at hi
    rw [List.getElem_replicate, take_memory]
    obtain ⟨v, hv⟩ : ∃ v, a.memory.read (a.addressInLast start + wordSize * i) = .ok v := by
      refine Memory.exists_read_iff.2 ⟨?_, ?_, ?_⟩ <;> simp only [wordSize] at * <;> omega
    have hz := ha.fresh _ v (by omega) hv
    rw [hv, hz]
  · refine ⟨hfit, ha.even, ha.stop_le, ha.opens, fun x w hx hw => ha.fresh x w ?_ hw⟩
    rw [frontier_take] at hx
    omega

theorem addChunk_eq_ok {a b : Arena} {k : Nat} (h : a.addChunk k = .ok b) :
    b = { a with memory := a.memory.grow k, cursor := 0 } ∧ a.memory.hasRoom k = true ∧
      wordSize * k < chunkByteLimit := by
  unfold addChunk at h
  split at h
  case isTrue => simp at h
  case isFalse hk =>
    split at h
    case isFalse => simp at h
    case isTrue hr => exact ⟨(Except.ok.inj h).symm, hr, by omega⟩

theorem Even.addChunk {a b : Arena} {k : Nat} (ha : a.Even) (hk : k % 2 = 0)
    (h : a.addChunk k = .ok b) : b.Even := by
  obtain ⟨rfl, -⟩ := addChunk_eq_ok h
  intro c hc
  rcases List.mem_append.1 hc with hc | hc
  · exact ha c hc
  · obtain rfl := List.mem_singleton.1 hc
    simpa using hk

theorem capacity_addChunk {a b : Arena} {k : Nat} (h : a.addChunk k = .ok b) : b.capacity = k := by
  obtain ⟨rfl, -⟩ := addChunk_eq_ok h
  simp [capacity, Memory.grow]

theorem frontier_addChunk {a b : Arena} {k : Nat} (h : a.addChunk k = .ok b) :
    b.frontier = a.memory.stop := by
  have hc := capacity_addChunk h
  obtain ⟨rfl, -⟩ := addChunk_eq_ok h
  have hf := addressInLast_add { a with memory := a.memory.grow k, cursor := 0 } 0
  rw [hc] at hf
  simp only [frontier, Memory.stop, Memory.extent_grow, wordSize] at *
  omega

theorem Valid.addChunk {a b : Arena} {k : Nat} (ha : a.Valid) (hk : k % 2 = 0)
    (hcw : a.config.chunkWords ≤ k) (h : a.addChunk k = .ok b) : b.Valid := by
  have hf := frontier_addChunk h
  have heven := Even.addChunk ha.even hk h
  obtain ⟨rfl, hr, hl⟩ := addChunk_eq_ok h
  refine ⟨Nat.zero_le _, heven, ?_, fun _ => ?_, fun x w hx hw => ?_⟩
  · simpa [Memory.hasRoom, Memory.stop] using hr
  · simp only [ArenaConfig.Opens, wordSize] at *
    omega
  · exact Memory.read_grow_of_stop_le (hf ▸ hx) hw

theorem exceeded_of_limit_eq_none {a : Arena} (h : a.config.limit = none) (padding size : Nat) :
    a.exceeded padding size = .ok none := by
  rw [exceeded, h]

/-- So many more words keep to the limit, if there is one. -/
def Allows (a : Arena) (n : Nat) : Prop :=
  ∀ limit, a.config.limit = some limit → a.allocated + n ≤ limit

theorem allows_of_exceeded {a : Arena} {padding size : Nat}
    (h : a.exceeded padding size = .ok none) : a.Allows (padding + size) := by
  intro limit hlimit
  simp only [exceeded, hlimit, bind_eq_ok_iff] at h
  obtain ⟨most, hmost, total, htotal, h⟩ := h
  obtain ⟨-, rfl⟩ := Count.add_eq_ok_iff.1 hmost
  obtain ⟨-, rfl⟩ := Count.add_eq_ok_iff.1 htotal
  split at h
  case isTrue => cases h
  case isFalse hle => omega

theorem reserve_of_isEmpty {r : Request} (hr : r.isEmpty = true) (a : Arena) :
    a.reserve r = .ok (r.dangling, a) := by
  rw [Arena.reserve, plan, if_pos hr]
  rfl

/-- The ways in which a request succeeds: it asks for nothing, or it is given a block of the last
chunk, or the first block of a new one. -/
inductive Reserves (a : Arena) (r : Request) : Nat → Arena → Prop where
  | nothing (hr : r.isEmpty = true) : a.Reserves r r.dangling a
  | inChunk {start : Nat} (hr : r.isEmpty = false)
      (hs : Count.roundUp a.cursor r.alignment = .ok start)
      (hfit : start + r.wordCount ≤ a.capacity)
      (hl : a.Allows (start - a.cursor + r.wordCount)) :
      a.Reserves r (a.take start r.wordCount).1 (a.take start r.wordCount).2
  | newChunk {k : Nat} {b : Arena} (hr : r.isEmpty = false)
      (hk : Count.roundUp (max r.wordCount a.config.chunkWords) 2 = .ok k)
      (hb : a.addChunk k = .ok b) (hl : a.Allows r.wordCount) :
      a.Reserves r (b.take 0 r.wordCount).1 (b.take 0 r.wordCount).2

theorem reserves_of_ok {a b : Arena} {r : Request} {x : Nat} (h : a.reserve r = .ok (x, b)) :
    a.Reserves r x b := by
  cases hr : r.isEmpty with
  | true =>
    rw [reserve_of_isEmpty hr] at h
    cases h
    exact .nothing hr
  | false =>
    rw [Arena.reserve, bind_eq_ok_iff] at h
    obtain ⟨p, hp, h⟩ := h
    rw [plan, if_neg (by simp [hr]), bind_eq_ok_iff] at hp
    obtain ⟨size, hsize, hp⟩ := hp
    obtain rfl := Request.size_eq_ok hsize
    rw [planFor, bind_eq_ok_iff] at hp
    obtain ⟨start, hs, hp⟩ := hp
    rw [bind_eq_ok_iff] at hp
    obtain ⟨stop, hstop, hp⟩ := hp
    obtain ⟨-, rfl⟩ := Count.add_eq_ok_iff.1 hstop
    rw [bind_eq_ok_iff] at hp
    obtain ⟨excess, hex, hp⟩ := hp
    cases excess with
    | some limit =>
      cases hp
      cases h
    | none =>
      have hl := allows_of_exceeded hex
      by_cases hfit : start + r.wordCount ≤ a.capacity
      case pos =>
        simp only [hfit, decide_true, if_true] at hp hl
        cases hp
        cases h
        exact .inChunk hr hs hfit hl
      case neg =>
        simp only [hfit, decide_false, Bool.false_eq_true, if_false, bind_eq_ok_iff] at hp hl
        obtain ⟨k, hk, hp⟩ := hp
        cases hp
        simp only [bind_eq_ok_iff] at h
        obtain ⟨c, hc, h⟩ := h
        cases h
        exact .newChunk hr hk hc (by simpa using hl)

/-- A block starts at a double word if it was asked for as double words. -/
theorem Even.reserve {a b : Arena} {r : Request} {x : Nat} (ha : a.Even) (hr : r.isEmpty = false)
    (h : a.reserve r = .ok (x, b)) : b.Even ∧ x % (wordSize * r.alignment) = 0 := by
  cases reserves_of_ok h with
  | nothing he => simp [hr] at he
  | inChunk _ hs _ _ =>
    obtain ⟨-, -, hal⟩ := Count.roundUp_eq_ok r.alignment_pos hs
    exact ⟨ha, ha.addressInLast_aligned hal⟩
  | newChunk _ hk hc _ =>
    obtain ⟨-, -, heven⟩ := Count.roundUp_eq_ok Nat.two_pos hk
    have hc := ha.addChunk heven hc
    exact ⟨hc, hc.addressInLast_aligned (Nat.zero_mod _)⟩

/-- A request that is not empty and succeeds is handed out words that were not handed out before. -/
theorem Valid.reserve {a b : Arena} {r : Request} {x : Nat} (ha : a.Valid)
    (hr : r.isEmpty = false) (h : a.reserve r = .ok (x, b)) :
    a.Grants x r.wordCount b ∧ b.Valid ∧ x % (wordSize * r.alignment) = 0 := by
  refine And.imp_right (fun hv => ⟨hv, (Even.reserve ha.even hr h).2⟩) ?_
  cases reserves_of_ok h with
  | nothing he => simp [hr] at he
  | inChunk _ hs hfit _ =>
    obtain ⟨hle, -, -⟩ := Count.roundUp_eq_ok r.alignment_pos hs
    exact ha.take hle hfit
  | @newChunk k c _ hk hc _ =>
    obtain ⟨hmax, -, heven⟩ := Count.roundUp_eq_ok Nat.two_pos hk
    have hcv := ha.addChunk heven (by omega) hc
    have hfit : 0 + r.wordCount ≤ c.capacity := by
      rw [capacity_addChunk hc]
      omega
    have hf := frontier_addChunk hc
    obtain ⟨rfl, -⟩ := addChunk_eq_ok hc
    obtain ⟨hg, hv⟩ := hcv.take (Nat.le_refl 0) hfit
    refine ⟨⟨?_, hg.frontier_eq, rfl, .inr ⟨k, rfl⟩, hg.holds, hg.inLast⟩, hv⟩
    exact Nat.le_trans ha.frontier_le_stop (Nat.le_of_eq hf.symm)

end Arena

end TaggedHeap
