import TaggedHeap.Proofs.Arena.Requests
import TaggedHeap.Proofs.Arena.Stepwise

/-!
# What the words are charged to

A request that succeeds is charged the words of its block and the word that was skipped to align it.
The count of words handed out is the sum of these charges, and every chunk was opened by a request
that did not fit the one before it. The tail that is left behind in a chunk is charged to no request.
The two are told from the run alone, from what requests were made and how the arena looked before and
after each, so that writes and changes of the roots in between make no difference.
-/

namespace TaggedHeap

/-- The size of the chunk that is opened for a block of so many words. -/
def ArenaConfig.chunkFor (c : ArenaConfig) (size : Nat) : Nat :=
  max size c.chunkWords + max size c.chunkWords % 2

/-- The words that are skipped in front of a block that is placed behind the cursor. -/
def Request.skipped (cursor : Nat) : Request → Nat
  | .words _ => 0
  | .dwords n => if n ≠ 0 ∧ cursor % 2 = 1 then 1 else 0

namespace Heap

/-- The heap without its log. -/
def silent (h : Heap) : Heap := { h with log := [] }

/-- A request, its answer, and the heaps before and after it. -/
structure Exchange where
  request : Request
  answer : Except Fault Nat
  before : Heap
  after : Heap

namespace Exchange

def succeeded (c : Exchange) : Bool :=
  match c.answer with
  | .ok _ => true
  | .error _ => false

/-- A chunk was added for the request. -/
def opened (c : Exchange) : Bool :=
  decide (c.before.memory.chunks.length < c.after.memory.chunks.length)

/-- The words that the request takes, one more than its block if one was skipped. -/
def charge (c : Exchange) : Nat :=
  c.request.wordCount + if c.opened then 0 else c.request.skipped c.before.arena.cursor

def total : List Exchange → Nat
  | [] => 0
  | c :: cs => c.charge + total cs

end Exchange

/-- What happens to a heap: a request, a word stored at an address, or a change of the roots. -/
inductive Event where
  | request (r : Request)
  | store (address : Nat) (w : Word)
  | withRoots (roots : Roots)

/-- The heap after an event. A request may fail, and a store that goes astray changes nothing. -/
def step (h : Heap) : Event → Heap
  | .request r => (h.serve r).2
  | .store address w =>
    match h.memory.write address w with
    | .ok m => { h with arena := { h.arena with memory := m } }
    | .error _ => h
  | .withRoots roots => { h with roots }

def follow (h : Heap) (es : List Event) : Heap := es.foldl step h

def exchange (h : Heap) (r : Request) : Exchange :=
  ⟨r, (h.serve r).1, h.silent, (h.serve r).2.silent⟩

def exchange? (h : Heap) : Event → Option Exchange
  | .request r => some (h.exchange r)
  | _ => none

/-- The requests among the events, each with what became of it. -/
def exchanges (h : Heap) : List Event → List Exchange
  | [] => []
  | e :: es => (h.exchange? e).toList ++ (h.step e).exchanges es

end Heap

theorem ArenaConfig.eq_chunkFor_of_roundUp {c : ArenaConfig} {size k : Nat}
    (h : Count.roundUp (max size c.chunkWords) 2 = .ok k) : k = c.chunkFor size := by
  obtain ⟨hle, hlt, heven⟩ := Count.roundUp_eq_ok Nat.two_pos h
  simp only [chunkFor]
  omega

/-! ## One request -/

theorem Request.skipped_eq {r : Request} {cursor start : Nat} (hr : r.isEmpty = false)
    (h : Count.roundUp cursor r.alignment = .ok start) : r.skipped cursor = start - cursor := by
  obtain ⟨hle, hlt, hal⟩ := Count.roundUp_eq_ok r.alignment_pos h
  cases r with
  | words n =>
    simp only [alignment, skipped] at *
    omega
  | dwords n =>
    simp only [isEmpty, beq_eq_false_iff_ne] at hr
    simp only [alignment, skipped, hr, ne_eq, not_false_eq_true, true_and] at *
    split <;> omega

theorem Request.skipped_of_isEmpty {r : Request} (hr : r.isEmpty = true) (cursor : Nat) :
    r.wordCount = 0 ∧ r.skipped cursor = 0 := by
  cases r <;> simp [isEmpty, wordCount, skipped] at * <;> simp [hr]

namespace Arena

/-- The words handed out keep to the limit. -/
def WithinLimit (a : Arena) : Prop := a.Allows 0

theorem Balanced.of_sizes_eq {a : Arena} (ha : a.Balanced) {m : Memory}
    (hs : m.sizes = a.memory.sizes) : Balanced { a with memory := m } := by
  have hc := capacity_congr hs
  refine ⟨?_, ?_, ?_⟩
  · rw [hc]
    exact ha.cursor_le
  · rw [hc, Memory.extent_congr hs]
    exact ha.allocated_le
  · exact Nat.le_trans (Nat.le_of_eq (Memory.stop_congr hs)) ha.stop_le

end Arena

namespace Heap

open Exchange

/-- What becomes of a heap through a request that succeeds. -/
structure Exchange.Fulfilled (c : Exchange) : Prop where
  balanced : c.after.arena.Balanced
  config_eq : c.after.arena.config = c.before.arena.config
  sizes_eq : c.after.memory.sizes = c.before.memory.sizes ++
    if c.opened then [c.before.arena.config.chunkFor c.request.wordCount] else []
  allocated_eq : c.after.arena.allocated = c.before.arena.allocated + c.charge
  withinLimit : c.before.arena.WithinLimit → c.after.arena.WithinLimit

section Fulfilled

variable {h : Heap} (hb : h.arena.Balanced) {r : Request}
include hb

theorem fulfilled_nothing (hr : r.isEmpty = true) (x : Nat) :
    Exchange.Fulfilled ⟨r, .ok x, h, h⟩ := by
  obtain ⟨hn, hs⟩ := Request.skipped_of_isEmpty hr h.arena.cursor
  refine ⟨hb, rfl, ?_, ?_, fun hl => hl⟩
  · simp [opened]
  · simp [charge, opened, hn, hs]

theorem fulfilled_inChunk (hr : r.isEmpty = false) {start : Nat}
    (hs : Count.roundUp h.arena.cursor r.alignment = .ok start)
    (hfit : start + r.wordCount ≤ h.arena.capacity)
    (hl : h.arena.Allows (start - h.arena.cursor + r.wordCount)) (x : Nat) :
    Exchange.Fulfilled ⟨r, .ok x, h, { h with arena := (h.arena.take start r.wordCount).2 }⟩ := by
  obtain ⟨hle, -, -⟩ := Count.roundUp_eq_ok r.alignment_pos hs
  refine ⟨hb.take hle hfit, rfl, ?_, ?_, ?_⟩
  · simp [opened, memory]
  · simp only [charge, opened, memory, Request.skipped_eq hr hs, Arena.take, Nat.lt_irrefl,
      decide_false, Bool.false_eq_true, if_false]
    omega
  · intro _ limit hlimit
    have := hl limit hlimit
    simp only [Arena.take]
    omega

theorem fulfilled_newChunk {k : Nat} {b : Arena}
    (hk : Count.roundUp (max r.wordCount h.arena.config.chunkWords) 2 = .ok k)
    (hc : h.arena.addChunk k = .ok b) (hl : h.arena.Allows r.wordCount) (x : Nat) :
    Exchange.Fulfilled ⟨r, .ok x, h, { h with arena := (b.take 0 r.wordCount).2 }⟩ := by
  obtain ⟨hmax, -, -⟩ := Count.roundUp_eq_ok Nat.two_pos hk
  have hcap := Arena.capacity_addChunk hc
  have hbb := hb.addChunk hc
  obtain ⟨rfl, -⟩ := Arena.addChunk_eq_ok hc
  refine ⟨hbb.take (Nat.le_refl 0) (by omega), rfl, ?_, ?_, ?_⟩
  · have hsize := ArenaConfig.eq_chunkFor_of_roundUp hk
    simp [opened, memory, Memory.grow, Memory.sizes, hsize]
  · simp [charge, opened, memory, Arena.take, Memory.grow]
  · intro _ limit hlimit
    have := hl limit hlimit
    simp only [Arena.take]
    omega

theorem fulfilled_of_reserve {x : Nat} {b : Arena} (hx : h.arena.reserve r = .ok (x, b)) :
    Exchange.Fulfilled ⟨r, .ok x, h, { h with arena := b }⟩ := by
  cases Arena.reserves_of_ok hx with
  | nothing hr => exact fulfilled_nothing hb hr _
  | inChunk hr hs hfit hl => exact fulfilled_inChunk hb hr hs hfit hl _
  | newChunk _ hk hc hl => exact fulfilled_newChunk hb hk hc hl _

end Fulfilled

/-! ## A run of events -/

/-- The heap `h'` has come from `h` by the exchanges: the ones that succeeded are charged what was
handed out in between, and the ones that opened a chunk account for the chunks that came. -/
structure Accounted (h : Heap) (cs : List Exchange) (h' : Heap) : Prop where
  balanced : h'.arena.Balanced
  config_eq : h'.arena.config = h.arena.config
  sizes_eq : h'.memory.sizes = h.memory.sizes ++
    ((cs.filter succeeded).filter opened).map fun c =>
      h.arena.config.chunkFor c.request.wordCount
  allocated_eq : h'.arena.allocated = h.arena.allocated + total (cs.filter succeeded)
  counted : ∀ c ∈ cs.filter succeeded,
    Count.add c.before.arena.allocated c.charge = .ok c.after.arena.allocated
  withinLimit : h.arena.WithinLimit → h'.arena.WithinLimit

theorem total_append (cs ds : List Exchange) : total (cs ++ ds) = total cs + total ds := by
  induction cs with
  | nil => simp [total]
  | cons c cs ih => simp only [List.cons_append, total, ih, Nat.add_assoc]

namespace Accounted

variable {h h' : Heap}

theorem trans {k : Heap} {cs ds : List Exchange} (hc : h.Accounted cs h')
    (hd : h'.Accounted ds k) : h.Accounted (cs ++ ds) k := by
  refine ⟨hd.balanced, hd.config_eq.trans hc.config_eq, ?_, ?_, ?_, ?_⟩
  · rw [hd.sizes_eq, hc.sizes_eq, hc.config_eq]
    simp only [List.filter_append, List.map_append, List.append_assoc]
  · rw [hd.allocated_eq, hc.allocated_eq, List.filter_append, total_append, Nat.add_assoc]
  · intro c hm
    rw [List.filter_append] at hm
    rcases List.mem_append.1 hm with hm | hm
    · exact hc.counted c hm
    · exact hd.counted c hm
  · intro hl
    exact hd.withinLimit (hc.withinLimit hl)

/-- What memory holds is not accounted for. -/
theorem of_sizes_eq (hb : h.arena.Balanced) {m : Memory} (hs : m.sizes = h.memory.sizes) :
    h.Accounted [] { h with arena := { h.arena with memory := m } } :=
  ⟨hb.of_sizes_eq hs, rfl, hs.trans (List.append_nil _).symm, rfl, by simp, fun hl => hl⟩

theorem of_arena_eq (hb : h.arena.Balanced) (he : h'.arena = h.arena) : h.Accounted [] h' := by
  refine ⟨he ▸ hb, by rw [he], ?_, by rw [he]; rfl, by simp, fun hl => he ▸ hl⟩
  rw [memory, he]
  exact (List.append_nil _).symm

theorem of_failed {c : Exchange} (hc : c.succeeded = false) (hn : h.Accounted [] h') :
    h.Accounted [c] h' := by
  refine ⟨hn.balanced, hn.config_eq, ?_, ?_, ?_, hn.withinLimit⟩
  · simpa [hc] using hn.sizes_eq
  · simpa [hc] using hn.allocated_eq
  · simp [hc]

theorem of_fulfilled {c : Exchange} (hc : c.succeeded = true) (hf : c.Fulfilled)
    (hb : c.before.arena = h.arena) (ha : c.after.arena = h'.arena) : h.Accounted [c] h' := by
  obtain ⟨hbal, hconf, hsizes, halloc, hlimit⟩ := hf
  -- The sum is the count of a balanced arena, so it is no larger than memory.
  have hcount : Count.add c.before.arena.allocated c.charge = .ok c.after.arena.allocated :=
    Count.add_eq_ok_iff.2 ⟨halloc ▸ hbal.allocated_lt, halloc⟩
  simp only [memory, hb, ha] at hbal hconf hsizes halloc hlimit
  refine ⟨hbal, hconf, ?_, ?_, ?_, hlimit⟩
  · rw [memory, hsizes, memory]
    cases ho : c.opened <;> simp [hc, ho]
  · simpa [hc, total] using halloc
  · simpa [hc] using hcount

end Accounted

theorem exchange_eq {h : Heap} (hd : h.discipline = .plain) (r : Request) :
    h.exchange r =
      match h.arena.reserve r with
      | .ok (x, b) => ⟨r, .ok x, h.silent, { h.silent with arena := b }⟩
      | .error e => ⟨r, .error e, h.silent, h.silent⟩ := by
  rw [exchange, serve_eq hd]
  cases h.arena.reserve r <;> rfl

theorem accounted_exchange {h : Heap} (hd : h.discipline = .plain) (hb : h.arena.Balanced)
    (r : Request) : h.Accounted [h.exchange r] (h.serve r).2 := by
  rw [exchange_eq hd, serve_eq hd]
  cases hr : h.arena.reserve r with
  | error e =>
    apply Accounted.of_failed rfl
    exact .of_arena_eq hb rfl
  | ok v => exact .of_fulfilled rfl (fulfilled_of_reserve (h := h.silent) hb hr) rfl rfl

theorem accounted_step {h : Heap} (hd : h.discipline = .plain) (hb : h.arena.Balanced)
    (e : Event) : h.Accounted (h.exchange? e).toList (h.step e) := by
  cases e with
  | request r => exact accounted_exchange hd hb r
  | store address w =>
    rw [step]
    split
    case h_1 m hm => exact .of_sizes_eq hb (Memory.sizes_write hm)
    case h_2 => exact .of_arena_eq hb rfl
  | withRoots roots => exact .of_arena_eq hb rfl

theorem step_plain {h : Heap} (hd : h.discipline = .plain) (e : Event) :
    (h.step e).discipline = .plain := by
  cases e with
  | request r =>
    rw [step, serve_eq hd]
    cases h.arena.reserve r <;> exact hd
  | store address w =>
    rw [step]
    split <;> exact hd
  | withRoots roots => exact hd

theorem follow_plain {h : Heap} (hd : h.discipline = .plain) (es : List Event) :
    (h.follow es).discipline = .plain := by
  induction es generalizing h with
  | nil => exact hd
  | cons e es ih => exact ih (step_plain hd e)

/-- The exchanges before and after one of them are those of two runs of their own. -/
theorem exists_of_exchanges_eq {h : Heap} {es : List Event} {earlier later : List Exchange}
    {c : Exchange} (hes : h.exchanges es = earlier ++ c :: later) :
    ∃ es₁ r es₂, earlier = h.exchanges es₁ ∧ c = (h.follow es₁).exchange r ∧
      later = ((h.follow es₁).step (.request r)).exchanges es₂ := by
  induction es generalizing h earlier with
  | nil => simp [exchanges] at hes
  | cons e es ih =>
    rw [exchanges] at hes
    cases hex : h.exchange? e with
    | none =>
      rw [hex] at hes
      obtain ⟨es₁, r, es₂, rfl, rfl, rfl⟩ := ih hes
      refine ⟨e :: es₁, r, es₂, ?_, rfl, rfl⟩
      rw [exchanges, hex]
      rfl
    | some d =>
      cases e with
      | request r =>
        change h.exchange r :: (h.step (.request r)).exchanges es = earlier ++ c :: later at hes
        cases earlier with
        | nil =>
          obtain ⟨rfl, rfl⟩ := List.cons.inj hes
          exact ⟨[], r, es, rfl, rfl, rfl⟩
        | cons d ds =>
          obtain ⟨rfl, htail⟩ := List.cons.inj hes
          obtain ⟨es₁, r', es₂, rfl, rfl, rfl⟩ := ih htail
          exact ⟨.request r :: es₁, r', es₂, rfl, rfl, rfl⟩
      | store address w => cases hex
      | withRoots roots => cases hex

theorem exists_of_mem_exchanges {h : Heap} {es : List Event} {c : Exchange}
    (hc : c ∈ h.exchanges es) : ∃ es' r, c = (h.follow es').exchange r := by
  obtain ⟨earlier, later, hes⟩ := List.append_of_mem hc
  obtain ⟨es', r, -, -, rfl, -⟩ := exists_of_exchanges_eq hes
  exact ⟨es', r, rfl⟩

theorem accounted_follow {h : Heap} (hd : h.discipline = .plain) (hb : h.arena.Balanced)
    (es : List Event) : h.Accounted (h.exchanges es) (h.follow es) := by
  induction es generalizing h with
  | nil => exact .of_arena_eq hb rfl
  | cons e es ih =>
    have he := accounted_step hd hb e
    exact he.trans (ih (step_plain hd e) he.balanced)

/-- In every state that a new arena comes to, the cursor is in the last chunk, each chunk is as large
as the request that opened it made necessary, and the words handed out are those of the blocks and
those that were skipped to align a double word in a chunk that was already there. They are no more
than the chunks have and keep to the limit, and to check for overflow while they are counted makes
no difference to any request. -/
theorem words_charged_to_requests (config : ArenaConfig) (roots : Roots) (es : List Event) :
    let start : Heap := { arena := { config }, roots }
    let arena := (start.follow es).arena
    let served := (start.exchanges es).filter Exchange.succeeded
    arena.cursor ≤ arena.capacity ∧
    arena.memory.sizes =
      (served.filter Exchange.opened).map (fun c => config.chunkFor c.request.wordCount) ∧
    arena.allocated = Exchange.total served ∧
    arena.allocated ≤ arena.memory.extent ∧
    (∀ c ∈ served, Count.add c.before.arena.allocated c.charge = .ok c.after.arena.allocated) ∧
    (∀ r, (Arena.carryOut r).run arena = arena.allOrNothing (arena.reserve r)) ∧
    ∀ limit, config.limit = some limit → arena.allocated ≤ limit := by
  intro start arena served
  have ha : start.Accounted (start.exchanges es) (start.follow es) :=
    accounted_follow rfl (Arena.balanced_new config) es
  have hnew : start.arena.WithinLimit := fun limit _ => Nat.zero_le limit
  refine ⟨ha.balanced.cursor_le, ha.sizes_eq, ?_, ha.balanced.allocated_le_extent, ha.counted,
    Arena.run_carryOut ha.balanced, ?_⟩
  · exact ha.allocated_eq.trans (Nat.zero_add _)
  · intro limit hlimit
    exact ha.withinLimit hnew limit (ha.config_eq ▸ hlimit)

/-- A double word behind a single word is charged the word between them, and one that opens a chunk
is not. -/
example :
    let start : Heap := { arena := { config := { chunkWords := 4 } } }
    (start.exchanges [.request (.words 1), .request (.dwords 1), .request (.words 3),
      .request (.dwords 1)]).map Exchange.charge = [1, 3, 3, 2] := by
  rfl

end Heap

end TaggedHeap
