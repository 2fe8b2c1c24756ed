import TaggedHeap.Proofs.Arena.Overflow

/-!
# Where blocks are placed

A block that fits the last chunk is placed behind the cursor, and any other one is the first of a new
chunk. No block is ever placed in a chunk that has another one behind it. So what lies in a chunk
was given out between two moments of the run, when the chunk was opened and when the next one was.
-/

namespace TaggedHeap

theorem Memory.length_chunks (m : Memory) : m.chunks.length = m.sizes.length :=
  (List.length_map _).symm

namespace Arena

variable {a b : Arena} {r : Request} {p : Place}

theorem capacity_eq_getLast? (a : Arena) : a.capacity = a.memory.sizes.getLast?.getD 0 := by
  simp only [capacity, Memory.sizes, List.getLast?_map]

theorem sizes_addChunk {k : Nat} (h : a.addChunk k = .ok b) :
    b.memory.sizes = a.memory.sizes ++ [k] := by
  rw [(addChunk_eq_ok h).1]
  simp [Memory.sizes, Memory.grow]

/-- Cursor, sizes of the chunks and configuration are the same. -/
structure SameLayout (a b : Arena) : Prop where
  cursor_eq : b.cursor = a.cursor
  sizes_eq : b.memory.sizes = a.memory.sizes
  config_eq : b.config = a.config

namespace SameLayout

variable (h : a.SameLayout b)
include h

theorem capacity_eq : b.capacity = a.capacity := by
  rw [capacity_eq_getLast?, capacity_eq_getLast?, h.sizes_eq]

theorem length_eq : b.memory.chunks.length = a.memory.chunks.length := by
  rw [Memory.length_chunks, Memory.length_chunks, h.sizes_eq]

end SameLayout

/-! ## One block -/

/-- The place of a block and the arena that is left: in the last chunk if there is room for it behind
the cursor, and otherwise at the start of a new one. -/
inductive Places (a : Arena) (r : Request) : Place → Arena → Prop where
  | inLast (hfit : a.startFor r + r.wordCount ≤ a.capacity) :
      a.Places r ⟨a.memory.chunks.length - 1, a.startFor r⟩ (a.take (a.startFor r) r.wordCount).2
  | inNew {b : Arena} (hfull : a.capacity < a.startFor r + r.wordCount)
      (hb : a.addChunk (a.config.chunkFor r.wordCount) = .ok b) :
      a.Places r ⟨a.memory.chunks.length, 0⟩ (b.take 0 r.wordCount).2

theorem locate?_addressInLast {w : Nat} (hw : w < a.capacity) :
    a.memory.locate? (a.addressInLast w) = some ⟨a.memory.chunks.length - 1, w⟩ := by
  cases hl : a.memory.chunks.getLast? with
  | none => simp [capacity, hl] at hw
  | some chunk =>
    rw [capacity, hl] at hw
    have hget : a.memory.get? ⟨a.memory.chunks.length - 1, w⟩ = some chunk[w] := by
      simp [Memory.get?, ← List.getLast?_eq_getElem?, hl]
    exact Memory.locate?_address hget (b := 0) (by decide)

namespace Balanced

variable {x : Nat} (ha : a.Balanced) (hr : r.isEmpty = false) (h : a.reserve r = .ok (x, b))
include ha hr h

/-- There is no new chunk for a block that the last one has room for. -/
theorem take_of_reserve (hfit : a.startFor r + r.wordCount ≤ a.capacity) :
    a.take (a.startFor r) r.wordCount = (x, b) := by
  -- The block ends inside of the chunk, so no sum overflows and only the limit is left to refuse it.
  have hcap := Nat.lt_of_le_of_lt a.capacity_le_extent ha.extent_lt
  rw [ha.reserve_eq hr (Nat.lt_of_le_of_lt hfit hcap)] at h
  obtain ⟨excess, -, h⟩ := bind_eq_ok_iff.1 h
  cases excess with
  | some limit => cases h
  | none =>
    simp only [provide, if_pos hfit] at h
    exact Except.ok.inj h

/-- And there is one for a block that it has no room for. -/
theorem addChunk_of_reserve (hfull : a.capacity < a.startFor r + r.wordCount) :
    ∃ c, a.addChunk (a.config.chunkFor r.wordCount) = .ok c ∧ c.take 0 r.wordCount = (x, b) := by
  cases reserves_of_ok h with
  | nothing he => simp [hr] at he
  | inChunk _ hs hfit _ =>
    obtain rfl := Except.ok.inj ((ha.roundUp_cursor hr).symm.trans hs)
    omega
  | @newChunk k c _ hk hc _ =>
    exact ⟨c, ArenaConfig.eq_chunkFor_of_roundUp hk ▸ hc, rfl⟩

theorem places_of_reserve : ∃ p, b.memory.locate? x = some p ∧ a.Places r p b := by
  have hn := Request.wordCount_pos hr
  by_cases hfit : a.startFor r + r.wordCount ≤ a.capacity
  case pos =>
    obtain ⟨rfl, rfl⟩ := Prod.mk.inj (ha.take_of_reserve hr h hfit)
    exact ⟨_, locate?_addressInLast (a := a) (by omega), .inLast hfit⟩
  case neg =>
    obtain ⟨c, hc, htake⟩ := ha.addChunk_of_reserve hr h (Nat.not_le.1 hfit)
    obtain ⟨rfl, rfl⟩ := Prod.mk.inj htake
    have hfirst : 0 < c.capacity := by
      rw [capacity_addChunk hc, ArenaConfig.chunkFor]
      omega
    have hlast : c.memory.chunks.length - 1 = a.memory.chunks.length := by
      rw [Memory.length_chunks, sizes_addChunk hc, List.length_append, ← Memory.length_chunks]
      rfl
    have hplace : c.memory.locate? (c.addressInLast 0) = some ⟨a.memory.chunks.length, 0⟩ := by
      rw [locate?_addressInLast hfirst, hlast]
    exact ⟨_, hplace, .inNew (Nat.not_le.1 hfit) hc⟩

end Balanced

namespace Places

variable (h : a.Places r p b)
include h

/-- A block that fits the last chunk goes there. -/
theorem stays (hfit : a.startFor r + r.wordCount ≤ a.capacity) :
    p = ⟨a.memory.chunks.length - 1, a.startFor r⟩ ∧
      b.cursor = a.startFor r + r.wordCount ∧ b.memory = a.memory ∧ b.config = a.config := by
  cases h with
  | inLast => exact ⟨rfl, rfl, rfl, rfl⟩
  | inNew hfull => omega

/-- A block that does not fit the last chunk opens one of the size that it needs. -/
theorem opens (hfull : a.capacity < a.startFor r + r.wordCount) :
    p = ⟨a.memory.chunks.length, 0⟩ ∧ b.cursor = r.wordCount ∧
      b.memory.sizes = a.memory.sizes ++ [a.config.chunkFor r.wordCount] ∧
      b.config = a.config := by
  cases h with
  | inLast hfit => omega
  | @inNew c _ hb =>
    have hconfig : c.config = a.config := by rw [(addChunk_eq_ok hb).1]
    refine ⟨rfl, Nat.zero_add _, ?_, hconfig⟩
    rw [take_memory, sizes_addChunk hb]

/-- A block lies in a chunk that was the last one before or is the last one now. -/
theorem chunk_bounds (hr : r.isEmpty = false) :
    a.memory.chunks.length ≤ p.chunk + 1 ∧ p.chunk < b.memory.chunks.length ∧
      a.memory.chunks.length ≤ b.memory.chunks.length := by
  have hn := Request.wordCount_pos hr
  by_cases hfit : a.startFor r + r.wordCount ≤ a.capacity
  case pos =>
    obtain ⟨rfl, -, hmemory, -⟩ := h.stays hfit
    have hne : a.memory.chunks ≠ [] := by
      intro hnil
      simp only [capacity, hnil, List.getLast?_nil, Option.map_none, Option.getD_none] at hfit
      omega
    have hpos := List.length_pos_iff.2 hne
    rw [hmemory]
    simp only
    omega
  case neg =>
    obtain ⟨rfl, -, hsizes, -⟩ := h.opens (Nat.not_le.1 hfit)
    rw [Memory.length_chunks b.memory, hsizes, List.length_append, ← Memory.length_chunks]
    simp

end Places

end Arena

/-! ## A run of requests -/

namespace Heap

variable {h : Heap}

namespace Exchange

/-- Words were asked for and given. -/
def granted (c : Exchange) : Bool := c.succeeded && !c.request.isEmpty

/-- The place of the block, if words were asked for and given. -/
def place? (c : Exchange) : Option Place :=
  match c.answer with
  | .ok x => if c.request.isEmpty then none else c.after.memory.locate? x
  | .error _ => none

/-- The places in one chunk at which the requests were given blocks. -/
def placesIn (k : Nat) (cs : List Exchange) : List Place :=
  (cs.filterMap place?).filter (·.chunk = k)

theorem isEmpty_of_granted {c : Exchange} (hc : c.granted = true) : c.request.isEmpty = false := by
  simp only [granted, Bool.and_eq_true, Bool.not_eq_true'] at hc
  exact hc.2

theorem place?_eq_none {c : Exchange} (hc : c.granted = false) : c.place? = none := by
  obtain ⟨r, answer, before, after⟩ := c
  cases answer with
  | error e => rfl
  | ok x =>
    have hr : r.isEmpty = true := by simpa [granted, succeeded] using hc
    simp only [place?, hr, if_true]

theorem placesIn_append (k : Nat) (cs ds : List Exchange) :
    placesIn k (cs ++ ds) = placesIn k cs ++ placesIn k ds := by
  rw [placesIn, List.filterMap_append, List.filter_append, placesIn, placesIn]

theorem placesIn_singleton {c : Exchange} {p : Place} (hp : c.place? = some p) (k : Nat) :
    placesIn k [c] = if p.chunk = k then [p] else [] := by
  by_cases h : p.chunk = k <;> simp [placesIn, hp, h]

theorem placesIn_eq_nil {k : Nat} {cs : List Exchange}
    (hne : ∀ c ∈ cs, ∀ p, c.place? = some p → p.chunk ≠ k) : placesIn k cs = [] := by
  refine List.filter_eq_nil_iff.2 fun p hp hk => ?_
  obtain ⟨c, hc, hcp⟩ := List.mem_filterMap.1 hp
  exact hne c hc p hcp (of_decide_eq_true hk)

theorem placesIn_of_not_granted {cs : List Exchange} (hc : ∀ c ∈ cs, c.granted = false) (k : Nat) :
    placesIn k cs = [] := by
  refine placesIn_eq_nil fun c hm p hp => ?_
  rw [place?_eq_none (hc c hm)] at hp
  cases hp

end Exchange

open Exchange

/-- The arena is asked at once and is in order. -/
structure Direct (h : Heap) : Prop where
  plain : h.discipline = .plain
  balanced : h.arena.Balanced

/-- An event leaves the layout of the arena as it is, or it is a request that is given a block. -/
inductive Advances (h : Heap) (e : Event) : Prop where
  | keeps (hlayout : h.arena.SameLayout (h.step e).arena)
      (hc : ∀ c ∈ (h.exchange? e).toList, c.granted = false)
  | places {c : Exchange} {p : Place} (hc : h.exchange? e = some c) (hg : c.granted = true)
      (hp : c.place? = some p) (hplaces : h.arena.Places c.request p (h.step e).arena)

namespace Direct

variable (hh : h.Direct)
include hh

theorem step (e : Event) : (h.step e).Direct :=
  ⟨step_plain hh.plain e, (accounted_step hh.plain hh.balanced e).balanced⟩

theorem follow (es : List Event) : (h.follow es).Direct :=
  ⟨follow_plain hh.plain es, (accounted_follow hh.plain hh.balanced es).balanced⟩

theorem advances_request (r : Request) : h.Advances (.request r) := by
  have hex := exchange_eq hh.plain r
  have hserve := serve_eq hh.plain r
  cases hres : h.arena.reserve r with
  | error fault =>
    rw [hres] at hex hserve
    refine .keeps ?_ (by simp [exchange?, hex, granted, succeeded])
    rw [Heap.step, hserve]
    exact ⟨rfl, rfl, rfl⟩
  | ok answer =>
    obtain ⟨x, b⟩ := answer
    rw [hres] at hex hserve
    have harena : (h.step (.request r)).arena = b := by rw [Heap.step, hserve]
    cases hr : r.isEmpty with
    | true =>
      rw [Arena.reserve_of_isEmpty hr] at hres
      cases hres
      refine .keeps ?_ (by simp [exchange?, hex, granted, hr])
      rw [harena]
      exact ⟨rfl, rfl, rfl⟩
    | false =>
      obtain ⟨p, hp, hplaces⟩ := hh.balanced.places_of_reserve hr hres
      have hplace : Exchange.place? ⟨r, .ok x, h.silent, { h.silent with arena := b }⟩ = some p := by
        simp only [place?, hr, Bool.false_eq_true, if_false]
        exact hp
      refine .places ?_ ?_ hplace (harena ▸ hplaces)
      · rw [exchange?, hex]
      · simp [granted, succeeded, hr]

theorem advances (e : Event) : h.Advances e := by
  cases e with
  | request r => exact hh.advances_request r
  | store address w =>
    refine .keeps ?_ (by simp [exchange?])
    rw [Heap.step]
    split
    case h_1 m hm => exact ⟨rfl, Memory.sizes_write hm, rfl⟩
    case h_2 => exact ⟨rfl, rfl, rfl⟩
  | withRoots roots => exact .keeps ⟨rfl, rfl, rfl⟩ (by simp [exchange?])

/-- The blocks of a run lie in the chunk that was the last one ahead of it or in one that the run has
opened. -/
theorem chunk_bounds (es : List Event) :
    h.memory.chunks.length ≤ (h.follow es).memory.chunks.length ∧
      ∀ d ∈ h.exchanges es, ∀ p, d.place? = some p →
        h.memory.chunks.length ≤ p.chunk + 1 ∧
          p.chunk < (h.follow es).memory.chunks.length := by
  induction es generalizing h with
  | nil => exact ⟨Nat.le_refl _, by simp [exchanges]⟩
  | cons e es ih =>
    -- Chunks only ever get more, so the bounds of the rest of the run are bounds for all of it.
    obtain ⟨hle, hrest⟩ := ih (hh.step e)
    change _ ≤ ((h.step e).follow es).memory.chunks.length ∧
      ∀ d ∈ (h.exchange? e).toList ++ (h.step e).exchanges es, ∀ p, d.place? = some p →
        _ ∧ p.chunk < ((h.step e).follow es).memory.chunks.length
    cases hh.advances e with
    | keeps hlayout hc =>
      have hlength : (h.step e).memory.chunks.length = h.memory.chunks.length := hlayout.length_eq
      rw [hlength] at hle hrest
      refine ⟨hle, fun d hd p hp => ?_⟩
      rcases List.mem_append.1 hd with hd | hd
      · rw [place?_eq_none (hc d hd)] at hp
        cases hp
      · exact hrest d hd p hp
    | places hc hg hp hplaces =>
      obtain ⟨hlow, hhigh, hgrows⟩ := hplaces.chunk_bounds (isEmpty_of_granted hg)
      refine ⟨Nat.le_trans hgrows hle, fun d hd q hq => ?_⟩
      rw [hc] at hd
      rcases List.mem_append.1 hd with hd | hd
      · obtain rfl := List.mem_singleton.1 hd
        obtain rfl := Option.some.inj (hp.symm.trans hq)
        exact ⟨hlow, Nat.lt_of_lt_of_le hhigh hle⟩
      · exact ⟨Nat.le_trans hgrows (hrest d hd q hq).1, (hrest d hd q hq).2⟩

/-- No block lies in a chunk that is yet to be opened. -/
theorem placesIn_of_follow_length_le (es : List Event) {k : Nat}
    (hk : (h.follow es).memory.chunks.length ≤ k) : placesIn k (h.exchanges es) = [] := by
  refine placesIn_eq_nil fun d hd p hp => ?_
  have hlt := ((hh.chunk_bounds es).2 d hd p hp).2
  omega

/-- No block is placed in a chunk once there is another one behind it. -/
theorem placesIn_of_lt_length (es : List Event) {k : Nat}
    (hk : k + 1 < h.memory.chunks.length) : placesIn k (h.exchanges es) = [] := by
  refine placesIn_eq_nil fun d hd p hp => ?_
  have hle := ((hh.chunk_bounds es).2 d hd p hp).1
  omega

/-- A block that does not fit the last chunk is the end of it. -/
theorem placesIn_of_not_fits {e : Event} {c : Exchange} {p : Place} {k : Nat}
    (hk : h.memory.chunks.length = k + 1) (hc : h.exchange? e = some c) (hp : c.place? = some p)
    (hplaces : h.arena.Places c.request p (h.step e).arena)
    (hfull : h.arena.capacity < h.arena.startFor c.request + c.request.wordCount)
    (es : List Event) : placesIn k (h.exchanges (e :: es)) = [] := by
  obtain ⟨rfl, -, hsizes, -⟩ := hplaces.opens hfull
  have hnext : h.arena.memory.chunks.length ≠ k := Nat.ne_of_gt (hk ▸ Nat.lt_succ_self k)
  have hbehind : k + 1 < (h.step e).memory.chunks.length := by
    rw [memory, Memory.length_chunks, hsizes, List.length_append, ← Memory.length_chunks, ← hk]
    exact Nat.lt_succ_self _
  rw [exchanges, placesIn_append, hc, Option.toList_some, placesIn_singleton hp, if_neg hnext,
    (hh.step e).placesIn_of_lt_length es hbehind, List.nil_append]

end Direct

end Heap

end TaggedHeap
