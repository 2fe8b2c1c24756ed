import TaggedHeap.Proofs.Arena.Overflow

/-!
# What an arena has handed out

The history of an arena is the list of the blocks that it has handed out since it was new, whatever
words were stored in the meantime and wherever. No block reaches behind the frontier of its time, so
what is handed out next is apart from all of them, also if memory does not hold what it ought to.
-/

namespace TaggedHeap

namespace Arena

/-- The arena has handed out the blocks, the last one last. -/
inductive History : Arena → List Span → Prop where
  | new (config : ArenaConfig) : History { config } []
  | request {a b : Arena} {blocks : List Span} {r : Request} {x : Nat} : History a blocks →
      r.isEmpty = false → a.reserve r = .ok (x, b) → History b (blocks ++ [⟨x, r.wordCount⟩])
  | store {a : Arena} {blocks : List Span} {m : Memory} {x : Nat} {w : Word} : History a blocks →
      a.memory.write x w = .ok m → History { a with memory := m } blocks

/-- The arena `b` has handed out `n` words at the address `x` behind all that `a` had. -/
structure HandsOut (a : Arena) (x n : Nat) (b : Arena) : Prop where
  frontier_le : a.frontier ≤ x
  frontier_eq : b.frontier = x + wordSize * n
  inChunk : b.memory.InChunk ⟨x, n⟩
  memory_eq : b.memory = a.memory ∨ ∃ k, b.memory = a.memory.grow k
  config_eq : b.config = a.config

theorem Balanced.handsOut {a b : Arena} {r : Request} {x : Nat} (ha : a.Balanced)
    (hr : r.isEmpty = false) (h : a.reserve r = .ok (x, b)) : a.HandsOut x r.wordCount b := by
  obtain ⟨hc, hm⟩ := inChunk_of_reserve hr h
  cases reserves_of_ok h with
  | nothing he => simp [hr] at he
  | @inChunk start _ hs _ _ =>
    obtain ⟨hle, -, -⟩ := Count.roundUp_eq_ok r.alignment_pos hs
    refine ⟨?_, a.frontier_take start r.wordCount, hc, hm, rfl⟩
    have hstart := a.addressInLast_add start
    have hcursor := a.addressInLast_add a.cursor
    change a.addressInLast a.cursor ≤ a.addressInLast start
    simp only [wordSize] at *
    omega
  | @newChunk k c _ _ hb _ =>
    have hfrontier := frontier_addChunk hb
    have hcursor : c.cursor = 0 := by rw [(addChunk_eq_ok hb).1]
    rw [frontier, hcursor] at hfrontier
    refine ⟨?_, c.frontier_take 0 r.wordCount, hc, hm, by rw [(addChunk_eq_ok hb).1]; rfl⟩
    exact Nat.le_trans (frontier_le_stop_of_le ha.cursor_le) (Nat.le_of_eq hfrontier.symm)

namespace HandsOut

variable {a b : Arena} {x n : Nat}

theorem read (h : a.HandsOut x n b) {y : Nat} {w : Word} (hw : a.memory.read y = .ok w) :
    b.memory.read y = .ok w := by
  rcases h.memory_eq with he | ⟨k, he⟩
  · rw [he, hw]
  · rw [he]
    exact Memory.read_grow hw k

theorem chunks (h : a.HandsOut x n b) {s : Span} (hs : a.memory.InChunk s) :
    b.memory.InChunk s := by
  rcases h.memory_eq with he | ⟨k, he⟩
  · rw [he]
    exact hs
  · rw [he]
    exact hs.grow k

end HandsOut

theorem opens_of_reserve {a b : Arena} {r : Request} {x : Nat} (h : a.reserve r = .ok (x, b))
    (ha : a.memory.chunks ≠ [] → a.config.Opens) : b.memory.chunks ≠ [] → b.config.Opens := by
  cases reserves_of_ok h with
  | nothing => exact ha
  | inChunk => exact ha
  | newChunk _ hk hc _ =>
    intro _
    obtain ⟨hmax, -, heven⟩ := Count.roundUp_eq_ok Nat.two_pos hk
    obtain ⟨rfl, -, hlt⟩ := addChunk_eq_ok hc
    simp only [take, ArenaConfig.Opens, wordSize] at *
    omega

namespace History

variable {a : Arena} {blocks : List Span}

theorem balanced (h : a.History blocks) : a.Balanced := by
  induction h with
  | new config => exact balanced_new config
  | @request a b _ _ _ _ _ hres ih =>
    exact (Heap.fulfilled_of_reserve (h := { arena := a }) ih hres).balanced
  | store _ hm ih => exact ih.of_sizes_eq (Memory.sizes_write hm)

theorem even (h : a.History blocks) : a.Even := by
  induction h with
  | new config => exact fun c hc => absurd hc List.not_mem_nil
  | request _ hr hres ih => exact (ih.reserve hr hres).1
  | store _ hm ih => exact ih.of_sizes_eq (Memory.sizes_write hm)

theorem opens (h : a.History blocks) : a.memory.chunks ≠ [] → a.config.Opens := by
  induction h with
  | new config => exact fun hne => absurd rfl hne
  | request _ _ hres ih => exact opens_of_reserve hres ih
  | @store a _ m _ _ _ hm ih =>
    intro hne
    refine ih fun hnil => hne ?_
    have hsizes := Memory.sizes_write hm
    simp only [Memory.sizes, hnil, List.map_nil, List.map_eq_nil_iff] at hsizes
    exact hsizes

theorem stop_le_frontier (h : a.History blocks) : ∀ s ∈ blocks, s.stop ≤ a.frontier := by
  induction h with
  | new config => simp
  | request hh hr hres ih =>
    intro s hs
    have hout := hh.balanced.handsOut hr hres
    have hle := hout.frontier_le
    rw [hout.frontier_eq]
    rcases List.mem_append.1 hs with hs | hs
    · exact Nat.le_trans (ih s hs) (Nat.le_trans hle (Nat.le_add_right _ _))
    · rw [List.mem_singleton.1 hs]
      exact Nat.le_refl _
  | store _ hm ih =>
    rw [frontier_congr (Memory.sizes_write hm)]
    exact ih

theorem storeMany {m n : Memory} {x : Nat} {ws : List Word}
    (h : ({ a with memory := m } : Arena).History blocks) (hn : m.writeMany x ws = .ok n) :
    ({ a with memory := n } : Arena).History blocks := by
  induction ws generalizing m x with
  | nil =>
    obtain rfl := Except.ok.inj hn
    exact h
  | cons w ws ih =>
    obtain ⟨k, hk, hn⟩ := bind_eq_ok_iff.1 hn
    exact ih (h.store hk) hn

end History

/-- Where there is a chunk and the limit allows it, memory for an object is handed out unless there
is no room. -/
theorem Balanced.reserve_words_cases {a : Arena} (ha : a.Balanced) (ho : a.config.Opens) {n : Nat}
    (hpos : 0 < n) (hn : n ≤ maxSlots) (hl : a.Allows n) :
    (∃ x b, a.reserve (.words n) = .ok (x, b)) ∨ a.reserve (.words n) = .error .exhausted := by
  have hr : (Request.words n).isEmpty = false := beq_eq_false_iff_ne.2 (Nat.ne_of_gt hpos)
  have hsmall : a.startFor (.words n) + n < wordLimit ∧ a.allocated + 0 + n < wordLimit := by
    have hcursor := Nat.le_trans ha.cursor_le a.capacity_le_extent
    have hallocated := ha.allocated_le_extent
    have hstop := ha.stop_le
    simp only [startFor, Request.skipped, maxSlots, maxFields, Memory.stop, Memory.origin, wordSize,
      wordLimit] at *
    omega
  have hpadding : a.paddingFor (.words n) = 0 := by simp [paddingFor, Request.skipped]
  have hexceeded : a.exceeded 0 n = .ok none := by
    cases hlimit : a.config.limit with
    | none => exact exceeded_of_limit_eq_none hlimit 0 n
    | some limit =>
      have hle := hl limit hlimit
      rw [exceeded_of_lt hlimit hsmall.2, if_neg (by omega)]
  obtain ⟨k, hk⟩ := ho.opening hn
  rw [ha.reserve_eq hr hsmall.1, hpadding]
  simp only [Request.wordCount, hexceeded, bind, Except.bind, provide, hk, pure, Except.pure]
  split
  case isTrue => exact .inl ⟨_, _, rfl⟩
  case isFalse =>
    split
    case isTrue => exact .inl ⟨_, _, rfl⟩
    case isFalse => exact .inr rfl

end Arena

end TaggedHeap
