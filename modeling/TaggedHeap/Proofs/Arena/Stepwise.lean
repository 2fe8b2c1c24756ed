import TaggedHeap.Proofs.Arena.Frontier

/-!
# Requests step by step

A request is planned and then carried out at once, so by its type it cannot fail halfway. Here it is
carried out as a sequence of steps on an arena that changes under way: a chunk is opened, the cursor
moves, the count of words goes up, and each step may fail with what was done before it left behind.
The two come to the same. After the first change nothing can fail any more, because the words handed
out never exceed the words there are, and these fit the address space.
-/

namespace TaggedHeap

namespace Arena

/-- An action on an arena. A fault leaves the arena as it is at that moment. -/
abbrev ArenaM := EStateM Fault Arena

/-- An answer or a fault that does not depend on the arena. -/
def check {α : Type} : Except Fault α → ArenaM α
  | .ok a => pure a
  | .error e => throw e

/-- Adds a chunk that is large enough for a block of so many words. -/
def openChunk (size : Nat) : ArenaM Unit := do
  let a ← get
  let capacity ← check (Count.roundUp (max size a.config.chunkWords) 2)
  set (← check (a.addChunk capacity))

/-- Hands out a block of the last chunk: moves the cursor behind it and counts its words and those
skipped before it. -/
def handOut (start padding size : Nat) : ArenaM Nat := do
  if (← get).memory.chunks.isEmpty then
    throw (.refused (.outOfMemory size))
  let cursor ← check (Count.add start size)
  modify fun a => { a with cursor }
  let taken ← check (Count.add padding size)
  let allocated ← check (Count.add (← get).allocated taken)
  modify fun a => { a with allocated }
  let address := (← get).addressInLast start
  if address = 0 then
    throw (.refused (.outOfMemory size))
  return address

/-- Takes a block behind the cursor, in the last chunk if it fits there and in a new one if not. -/
def bump (size alignment : Nat) : ArenaM Nat := do
  let a ← get
  let start ← check (Count.roundUp a.cursor alignment)
  let stop ← check (Count.add start size)
  let fits := decide (stop ≤ a.capacity)
  let padding := if fits then start - a.cursor else 0
  match ← check (a.exceeded padding size) with
  | some _ => throw (.refused (.outOfMemory size))
  | none =>
    if fits then handOut start padding size
    else
      openChunk size
      handOut 0 padding size

/-- A request, one change after the other. -/
def carryOut (r : Request) : ArenaM Nat := do
  if r.isEmpty then return r.dangling
  bump (← check r.size) r.alignment

/-! ## The words there are -/

/-- The words handed out are words of the chunks, those of the last chunk in front of the cursor, and
all chunks fit the address space. Nothing is said of what the words are. -/
structure Balanced (a : Arena) : Prop where
  cursor_le : a.cursor ≤ a.capacity
  allocated_le : a.allocated + a.capacity ≤ a.memory.extent + a.cursor
  stop_le : a.memory.stop ≤ wordLimit

theorem balanced_new (config : ArenaConfig) : Balanced { config } := by
  refine ⟨Nat.le_refl _, Nat.le_refl _, ?_⟩
  simp [Memory.stop, Memory.extent, Memory.wordsIn, Memory.origin, wordLimit]

theorem capacity_le_extent (a : Arena) : a.capacity ≤ a.memory.extent := by
  have h := Memory.wordsIn_take_last a.memory.chunks
  simp only [capacity, Memory.extent]
  omega

namespace Balanced

variable {a b : Arena}

theorem allocated_le_extent (ha : a.Balanced) : a.allocated ≤ a.memory.extent := by
  have hc := ha.cursor_le
  have hl := ha.allocated_le
  omega

theorem extent_lt (ha : a.Balanced) : a.memory.extent < wordLimit := by
  have hs := ha.stop_le
  simp only [Memory.stop, Memory.origin, wordSize, wordLimit] at *
  omega

theorem allocated_lt (ha : a.Balanced) : a.allocated < wordLimit :=
  Nat.lt_of_le_of_lt ha.allocated_le_extent ha.extent_lt

theorem cursor_lt (ha : a.Balanced) : a.cursor < wordLimit :=
  Nat.lt_of_le_of_lt (Nat.le_trans ha.cursor_le a.capacity_le_extent) ha.extent_lt

theorem take {start size : Nat} (ha : a.Balanced) (hs : a.cursor ≤ start)
    (hfit : start + size ≤ a.capacity) : (a.take start size).2.Balanced := by
  refine ⟨hfit, ?_, ha.stop_le⟩
  have hl := ha.allocated_le
  change a.allocated + (start - a.cursor) + size + a.capacity ≤ a.memory.extent + (start + size)
  omega

theorem addChunk {k : Nat} (ha : a.Balanced) (h : a.addChunk k = .ok b) : b.Balanced := by
  have hc := capacity_addChunk h
  have hl := ha.allocated_le_extent
  obtain ⟨rfl, hr, -⟩ := addChunk_eq_ok h
  refine ⟨Nat.zero_le _, ?_, ?_⟩
  · simp only [hc, Memory.extent_grow]
    omega
  · simpa [Memory.hasRoom, Memory.stop] using hr

end Balanced

/-! ## Once there is room nothing fails -/

theorem run_check {α : Type} (x : Except Fault α) (a : Arena) :
    (check x).run a =
      match x with
      | .ok v => .ok v a
      | .error e => .error e a := by
  cases x <;> rfl

theorem run_handOut {a : Arena} (ha : a.Balanced) {start size : Nat} (hs : a.cursor ≤ start)
    (hfit : start + size ≤ a.capacity) (hn : 0 < size) :
    (handOut start (start - a.cursor) size).run a =
      .ok (a.take start size).1 (a.take start size).2 := by
  -- The arena that is left is balanced, and that bounds all the sums on the way to it.
  have hb := ha.take hs hfit
  have hchunks : a.memory.chunks.isEmpty = false := by
    cases hc : a.memory.chunks with
    | nil => simp [capacity, hc] at hfit; omega
    | cons c cs => rfl
  have hcursor : Count.add start size = .ok (start + size) :=
    Count.add_eq_ok_iff.2 ⟨hb.cursor_lt, rfl⟩
  have hcount : a.allocated + (start - a.cursor) + size < wordLimit := hb.allocated_lt
  have htaken : Count.add (start - a.cursor) size = .ok (start - a.cursor + size) :=
    Count.add_eq_ok_iff.2 ⟨by omega, rfl⟩
  have hallocated : Count.add a.allocated (start - a.cursor + size) =
      .ok (a.allocated + (start - a.cursor) + size) :=
    Count.add_eq_ok_iff.2 ⟨by omega, by omega⟩
  have haddress : a.addressInLast start ≠ 0 := by
    have h := (a.origin_le_addressInLast start).1
    simp only [Memory.origin] at h
    omega
  have hsame : ∀ cursor allocated,
      Arena.addressInLast { a with cursor, allocated } start = a.addressInLast start :=
    fun _ _ => rfl
  simp only [handOut, EStateM.run_bind, EStateM.run_get, EStateM.run_modify, EStateM.run_pure,
    run_check, hchunks, hcursor, htaken, hallocated, haddress, hsame, Bool.false_eq_true, if_false]
  rfl

/-- The first block of a new chunk. -/
theorem run_handOut_addChunk {a b : Arena} (ha : a.Balanced) {k size : Nat}
    (h : a.addChunk k = .ok b) (hk : size ≤ k) (hn : 0 < size) :
    (handOut 0 0 size).run b = .ok (b.take 0 size).1 (b.take 0 size).2 := by
  have hcursor : b.cursor = 0 := by rw [(addChunk_eq_ok h).1]
  have hfit : 0 + size ≤ b.capacity := by rwa [capacity_addChunk h, Nat.zero_add]
  have hout := run_handOut (ha.addChunk h) (Nat.le_of_eq hcursor) hfit hn
  rwa [hcursor] at hout

/-! ## All or nothing -/

/-- The outcome of an action that leaves another arena behind if it succeeds and the same one if
not. -/
def allOrNothing (a : Arena) : Except Fault (Nat × Arena) → EStateM.Result Fault Arena Nat
  | .ok (x, b) => .ok x b
  | .error e => .error e a

/-- What is checked ahead of all changes may fail. -/
theorem run_check_bind {α : Type} {a : Arena} {x : Except Fault α} {f : α → ArenaM Nat}
    {g : α → Except Fault (Nat × Arena)}
    (h : ∀ v, x = .ok v → (f v).run a = a.allOrNothing (g v)) :
    (check x >>= f).run a = a.allOrNothing (x >>= g) := by
  rw [EStateM.run_bind, run_check]
  cases x with
  | error e => rfl
  | ok v => exact h v rfl

theorem run_get_bind {a : Arena} {f : Arena → ArenaM Nat} : (get >>= f).run a = (f a).run a := by
  rw [EStateM.run_bind, EStateM.run_get]

theorem run_openChunk_bind {a : Arena} {size : Nat} {f : ArenaM Nat}
    {g : Arena → Except Fault (Nat × Arena)}
    (h : ∀ k b, Count.roundUp (max size a.config.chunkWords) 2 = .ok k → a.addChunk k = .ok b →
      f.run b = a.allOrNothing (g b)) :
    (openChunk size >>= fun _ => f).run a =
      a.allOrNothing
        (Count.roundUp (max size a.config.chunkWords) 2 >>= fun k => a.addChunk k >>= g) := by
  rw [openChunk, bind_assoc, run_get_bind, bind_assoc]
  apply run_check_bind
  intro k hk
  rw [bind_assoc]
  apply run_check_bind
  intro b hb
  exact h k b hk hb

/-- The steps lead to what was planned, and a fault leaves the arena as it was before the first. -/
theorem run_carryOut {a : Arena} (ha : a.Balanced) (r : Request) :
    (carryOut r).run a = a.allOrNothing (a.reserve r) := by
  cases hr : r.isEmpty with
  | true =>
    rw [carryOut, if_pos hr, reserve_of_isEmpty hr]
    rfl
  | false =>
    have hn := Request.wordCount_pos hr
    simp only [carryOut, hr, reserve, plan, planFor, bind_assoc, Bool.false_eq_true, if_false]
    apply run_check_bind
    intro size hsize
    obtain rfl := Request.size_eq_ok hsize
    rw [bump, run_get_bind]
    apply run_check_bind
    intro start hstart
    obtain ⟨hle, -, -⟩ := Count.roundUp_eq_ok r.alignment_pos hstart
    apply run_check_bind
    intro stop hstop
    obtain ⟨-, rfl⟩ := Count.add_eq_ok_iff.1 hstop
    apply run_check_bind
    intro excess _
    -- This was the last check ahead of the changes.
    cases excess with
    | some limit => rfl
    | none =>
      by_cases hfit : start + r.wordCount ≤ a.capacity
      case pos =>
        simp only [hfit, decide_true, if_true]
        exact run_handOut ha hle hfit hn
      case neg =>
        simp only [hfit, decide_false, Bool.false_eq_true, if_false, bind_assoc]
        apply run_openChunk_bind
        intro k b hk hb
        obtain ⟨hmax, -, -⟩ := Count.roundUp_eq_ok Nat.two_pos hk
        exact run_handOut_addChunk ha hb (Nat.le_trans (Nat.le_max_left _ _) hmax) hn

end Arena

end TaggedHeap
