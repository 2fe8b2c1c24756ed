import TaggedHeap.Proofs.Arena.History

/-!
# The blocks of a run

The requests of a run are given the blocks of a history, whatever is stored between them. Every block
of a history begins behind the ones before it and lies in a single chunk, and a request leaves the
chunks that are there as they are, words included.
-/

namespace TaggedHeap

namespace Arena

theorem HandsOut.extends_chunks {a b : Arena} {x n : Nat} (h : a.HandsOut x n b) :
    a.memory.chunks <+: b.memory.chunks := by
  rcases h.memory_eq with he | ⟨k, he⟩
  · exact he ▸ List.prefix_rfl
  · rw [he, Memory.grow]
    exact List.prefix_append _ _

namespace History

variable {a : Arena} {blocks : List Span}

theorem pairwise_disjoint (h : a.History blocks) : blocks.Pairwise Span.Disjoint := by
  induction h with
  | new config => exact List.Pairwise.nil
  | request hh hr hres ih =>
    refine List.pairwise_append.2 ⟨ih, List.pairwise_singleton _ _, fun s hs t ht => ?_⟩
    obtain rfl := List.mem_singleton.1 ht
    have hbehind := (hh.balanced.handsOut hr hres).frontier_le
    exact .inl (Nat.le_trans (hh.stop_le_frontier s hs) hbehind)
  | store _ _ ih => exact ih

end History

end Arena

namespace Heap

/-- The words that a request was given, if it asked for words and got them. -/
def Exchange.span? (c : Exchange) : Option Span :=
  match c.answer with
  | .ok x => if c.request.isEmpty then none else some ⟨x, c.request.wordCount⟩
  | .error _ => none

section Plain

variable {h : Heap} {blocks : List Span} (hd : h.discipline = .plain)
  (hh : h.arena.History blocks)
include hd hh

/-! ## The history of a run -/

theorem history_request (r : Request) :
    (h.serve r).2.arena.History (blocks ++ (h.exchange r).span?.toList) := by
  rw [serve_eq hd, exchange_eq hd]
  cases hres : h.arena.reserve r with
  | error e => simpa [Exchange.span?] using hh
  | ok answer =>
    obtain ⟨x, b⟩ := answer
    cases hr : r.isEmpty with
    | true =>
      rw [Arena.reserve_of_isEmpty hr] at hres
      cases hres
      simpa [Exchange.span?, hr] using hh
    | false => simpa [Exchange.span?, hr] using hh.request hr hres

theorem history_step (e : Event) :
    (h.step e).arena.History (blocks ++ (h.exchange? e).toList.filterMap Exchange.span?) := by
  cases e with
  | request r =>
    have hrun := history_request hd hh r
    cases hs : (h.exchange r).span? <;> simpa [step, exchange?, hs] using hrun
  | store address w =>
    rw [step]
    split
    case h_1 m hm => simpa [exchange?] using hh.store hm
    case h_2 => simpa [exchange?] using hh
  | withRoots roots => simpa [step, exchange?] using hh

theorem history_follow (es : List Event) :
    (h.follow es).arena.History (blocks ++ (h.exchanges es).filterMap Exchange.span?) := by
  induction es generalizing h blocks with
  | nil => simpa [follow, exchanges] using hh
  | cons e es ih =>
    rw [exchanges, List.filterMap_append, ← List.append_assoc]
    exact ih (step_plain hd e) (history_step hd hh e)

/-! ## One request -/

theorem block_of_exchange {r : Request} {x : Nat} (hx : (h.exchange r).answer = .ok x)
    (hn : 0 < r.wordCount) :
    (h.exchange r).after.memory.InChunk ⟨x, r.wordCount⟩ ∧
      x % (wordSize * r.alignment) = 0 := by
  have hr : r.isEmpty = false := by
    cases r <;> simp [Request.isEmpty, Request.wordCount] at * <;> omega
  rw [exchange_eq hd] at hx ⊢
  cases hres : h.arena.reserve r with
  | error e => simp [hres] at hx
  | ok answer =>
    obtain ⟨y, b⟩ := answer
    obtain rfl : y = x := by simpa [hres] using hx
    exact ⟨(hh.balanced.handsOut hr hres).inChunk, (hh.even.reserve hr hres).2⟩

theorem extends_chunks_of_exchange (r : Request) :
    (h.exchange r).before.memory.chunks <+: (h.exchange r).after.memory.chunks := by
  rw [exchange_eq hd]
  cases hres : h.arena.reserve r with
  | error e => exact List.prefix_rfl
  | ok answer =>
    obtain ⟨x, b⟩ := answer
    cases hr : r.isEmpty with
    | true =>
      rw [Arena.reserve_of_isEmpty hr] at hres
      cases hres
      exact List.prefix_rfl
    | false => exact (hh.balanced.handsOut hr hres).extends_chunks

theorem extends_sizes_of_follow (es : List Event) :
    h.memory.sizes <+: (h.follow es).memory.sizes := by
  rw [(accounted_follow hd hh.balanced es).sizes_eq]
  exact List.prefix_append _ _

end Plain

/-- Every request of a run that asks for words and gets them is given words of one chunk, from a word
or double word boundary on, which no other request of the run is given. No request changes a word
of a chunk that is there, and nothing that happens removes or resizes one. -/
theorem blocks_of_requests_apart (config : ArenaConfig) (roots : Roots) (es : List Event) :
    let start : Heap := { arena := { config }, roots }
    (∀ c ∈ start.exchanges es,
      (∀ x, c.answer = .ok x → 0 < c.request.wordCount →
        c.after.memory.InChunk ⟨x, c.request.wordCount⟩ ∧
          x % (wordSize * c.request.alignment) = 0) ∧
      c.before.memory.chunks <+: c.after.memory.chunks) ∧
    ((start.exchanges es).filterMap Exchange.span?).Pairwise Span.Disjoint ∧
    ∀ later, (start.follow es).memory.sizes <+: (start.follow (es ++ later)).memory.sizes := by
  intro start
  have hh (es : List Event) :
      (start.follow es).arena.History ((start.exchanges es).filterMap Exchange.span?) :=
    history_follow (h := start) rfl (.new config) es
  have hd (es : List Event) : (start.follow es).discipline = .plain := follow_plain rfl es
  refine ⟨fun c hc => ?_, (hh es).pairwise_disjoint, fun later => ?_⟩
  · obtain ⟨es', r, rfl⟩ := exists_of_mem_exchanges hc
    refine ⟨fun x hx hn => ?_, extends_chunks_of_exchange (hd es') (hh es') r⟩
    exact block_of_exchange (hd es') (hh es') hx hn
  · have happend : start.follow (es ++ later) = (start.follow es).follow later := List.foldl_append
    rw [happend]
    exact extends_sizes_of_follow (hd es) (hh es) later

end Heap

end TaggedHeap
