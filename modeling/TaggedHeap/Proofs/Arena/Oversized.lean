import TaggedHeap.Proofs.Arena.Placement

/-!
# Blocks larger than a chunk

A chunk is as large as the configuration says or its first block needs, rounded up to double words.
So what is left behind a first block is never enough for a block that is larger than a chunk, and
such a block leaves at most one word itself, when its words are of an odd number. That word goes to
whoever is given words next, if it asks for a single one.
-/

namespace TaggedHeap

namespace Arena

variable {a b : Arena} {r : Request} {p : Place}

/-- The words behind the cursor in the last chunk. -/
def remaining (a : Arena) : Nat := a.capacity - a.cursor

theorem SameLayout.remaining_eq (h : a.SameLayout b) : b.remaining = a.remaining := by
  rw [remaining, remaining, h.capacity_eq, h.cursor_eq]

theorem not_fits_of_remaining_eq_zero (hr : r.isEmpty = false) (hl : a.remaining = 0) :
    a.capacity < a.startFor r + r.wordCount := by
  have hn := Request.wordCount_pos hr
  simp only [remaining, startFor] at *
  omega

theorem fits_iff_of_remaining_eq_one (hr : r.isEmpty = false) (hl : a.remaining = 1) :
    a.startFor r + r.wordCount ≤ a.capacity ↔ r = .words 1 := by
  have hn := Request.wordCount_pos hr
  cases r with
  | words n =>
    simp only [remaining, startFor, Request.skipped, Request.wordCount, Request.words.injEq] at *
    omega
  | dwords n =>
    simp only [remaining, startFor, Request.wordCount, reduceCtorEq, iff_false] at *
    omega

/-- A single word fills a chunk with a single word left. -/
theorem Places.fills (h : a.Places r p b) (hr : r = .words 1) (hl : a.remaining = 1) :
    p = ⟨a.memory.chunks.length - 1, a.cursor⟩ ∧ b.remaining = 0 ∧ b.memory = a.memory := by
  subst hr
  obtain ⟨rfl, hcursor, hmemory, -⟩ := h.stays ((fits_iff_of_remaining_eq_one rfl hl).2 rfl)
  refine ⟨rfl, ?_, hmemory⟩
  rw [remaining, capacity, hmemory, hcursor, ← capacity]
  simp only [remaining, startFor, Request.skipped, Request.wordCount] at *
  omega

/-- The last chunk has a block in it, and is no larger than the configuration or what is in front of
the cursor made necessary. The one word more comes from rounding up. -/
structure Snug (a : Arena) : Prop where
  cursor_pos : 0 < a.capacity → 0 < a.cursor
  capacity_le : a.capacity ≤ max a.cursor a.config.chunkWords + 1

theorem snug_new (config : ArenaConfig) : Snug { config } :=
  ⟨fun h => absurd h (Nat.lt_irrefl 0), Nat.zero_le _⟩

theorem Snug.of_sameLayout (ha : a.Snug) (h : a.SameLayout b) : b.Snug := by
  refine ⟨?_, ?_⟩
  · rw [h.capacity_eq, h.cursor_eq]
    exact ha.cursor_pos
  · rw [h.capacity_eq, h.cursor_eq, h.config_eq]
    exact ha.capacity_le

theorem Snug.of_places (ha : a.Snug) (hr : r.isEmpty = false) (h : a.Places r p b) : b.Snug := by
  have hn := Request.wordCount_pos hr
  have hle := ha.capacity_le
  by_cases hfit : a.startFor r + r.wordCount ≤ a.capacity
  case pos =>
    obtain ⟨-, hcursor, hmemory, hconfig⟩ := h.stays hfit
    have hcapacity : b.capacity = a.capacity := by rw [capacity, hmemory, capacity]
    refine ⟨fun _ => by omega, ?_⟩
    rw [hcapacity, hcursor, hconfig]
    simp only [startFor]
    omega
  case neg =>
    obtain ⟨-, hcursor, hsizes, hconfig⟩ := h.opens (Nat.not_le.1 hfit)
    have hcapacity : b.capacity = a.config.chunkFor r.wordCount := by
      simp [capacity_eq_getLast?, hsizes]
    refine ⟨fun _ => by omega, ?_⟩
    rw [hcapacity, hcursor, hconfig, ArenaConfig.chunkFor]
    omega

/-- A block that is larger than a chunk does not fit what is left of one. -/
theorem Snug.not_fits (ha : a.Snug) (hw : 1 ≤ a.config.chunkWords)
    (hn : a.config.chunkWords < r.wordCount) : a.capacity < a.startFor r + r.wordCount := by
  have hpos := ha.cursor_pos
  have hle := ha.capacity_le
  simp only [startFor]
  omega

end Arena

namespace Heap

open Exchange

variable {h : Heap}

namespace Direct

variable (hh : h.Direct)
include hh

theorem snug_step (ha : h.arena.Snug) (e : Event) : (h.step e).arena.Snug := by
  cases hh.advances e with
  | keeps hlayout _ => exact ha.of_sameLayout hlayout
  | places _ hg _ hplaces => exact ha.of_places (isEmpty_of_granted hg) hplaces

theorem snug_follow (ha : h.arena.Snug) (es : List Event) : (h.follow es).arena.Snug := by
  induction es generalizing h with
  | nil => exact ha
  | cons e es ih => exact ih (hh.step e) (hh.snug_step ha e)

/-! ## The rest of a chunk -/

section Rest

variable {k : Nat} (hk : h.memory.chunks.length = k + 1)
include hk

theorem placesIn_of_remaining_eq_zero (hl : h.arena.remaining = 0) (es : List Event) :
    placesIn k (h.exchanges es) = [] := by
  induction es generalizing h with
  | nil => rfl
  | cons e es ih =>
    cases hh.advances e with
    | keeps hlayout hc =>
      rw [exchanges, placesIn_append, placesIn_of_not_granted hc, List.nil_append]
      exact ih (hh.step e) (hlayout.length_eq.trans hk) (hlayout.remaining_eq.trans hl)
    | places hc hg hp hplaces =>
      have hfull := Arena.not_fits_of_remaining_eq_zero (isEmpty_of_granted hg) hl
      exact hh.placesIn_of_not_fits hk hc hp hplaces hfull es

/-- The last word of a chunk goes to the next request that is given words if it asks for one word,
and otherwise to none. -/
theorem placesIn_of_remaining_eq_one (hl : h.arena.remaining = 1) (es : List Event) :
    placesIn k (h.exchanges es) =
      if ((h.exchanges es).find? granted).map request = some (.words 1) then
        [⟨k, h.arena.cursor⟩]
      else [] := by
  -- Until words are given, nothing changes; the first that are decide.
  induction es generalizing h with
  | nil => rfl
  | cons e es ih =>
    cases hh.advances e with
    | keeps hlayout hc =>
      have hnone : (h.exchange? e).toList.find? granted = none :=
        List.find?_eq_none.2 fun d hd => by simp [hc d hd]
      rw [exchanges, placesIn_append, placesIn_of_not_granted hc, List.nil_append,
        List.find?_append, hnone, Option.none_or,
        ih (hh.step e) (hlayout.length_eq.trans hk) (hlayout.remaining_eq.trans hl),
        hlayout.cursor_eq]
    | @places c p hc hg hp hplaces =>
      have hfirst : (h.exchanges (e :: es)).find? granted = some c := by
        rw [exchanges, hc, Option.toList_some, List.singleton_append, List.find?_cons_of_pos hg]
      have hfits := Arena.fits_iff_of_remaining_eq_one (isEmpty_of_granted hg) hl
      rw [hfirst, Option.map_some]
      by_cases hword : c.request = .words 1
      case pos =>
        obtain ⟨rfl, hfull, hmemory⟩ := hplaces.fills hword hl
        have hlast : h.arena.memory.chunks.length - 1 = k := Nat.sub_eq_of_eq_add hk
        have hlength : (h.step e).memory.chunks.length = k + 1 :=
          (congrArg (fun m => m.chunks.length) hmemory).trans hk
        rw [hlast] at hp
        rw [exchanges, placesIn_append, (hh.step e).placesIn_of_remaining_eq_zero hlength hfull,
          List.append_nil, hc, Option.toList_some, placesIn_singleton hp, hword, if_pos rfl,
          if_pos rfl]
      case neg =>
        have hfull := Nat.not_le.1 (mt hfits.1 hword)
        rw [hh.placesIn_of_not_fits hk hc hp hplaces hfull es,
          if_neg fun he => hword (Option.some.inj he)]

end Rest

/-! ## The chunk of an oversized block -/

section Oversized

variable (hs : h.arena.Snug) (hw : 1 ≤ h.arena.config.chunkWords) {r : Request}
  (hc : (h.exchange r).succeeded = true) (hn : h.arena.config.chunkWords < r.wordCount)
include hs hw hc hn

theorem opens_of_lt_wordCount :
    (h.exchange r).place? = some ⟨h.memory.chunks.length, 0⟩ ∧
      (h.step (.request r)).arena.cursor = r.wordCount ∧
      (h.step (.request r)).memory.sizes =
        h.memory.sizes ++ [r.wordCount + r.wordCount % 2] := by
  cases hh.advances (.request r) with
  | keeps _ hnone =>
    have hempty : (h.exchange r).request.isEmpty = true := by
      simpa [granted, hc] using hnone _ (List.mem_singleton_self _)
    have hzero : r.wordCount = 0 := (Request.skipped_of_isEmpty hempty 0).1
    omega
  | places hex _ hp hplaces =>
    obtain rfl := Option.some.inj hex
    obtain ⟨rfl, hcursor, hsizes, -⟩ := hplaces.opens (hs.not_fits hw hn)
    have hsize : h.arena.config.chunkFor r.wordCount = r.wordCount + r.wordCount % 2 := by
      rw [ArenaConfig.chunkFor, Nat.max_eq_left (Nat.le_of_lt hn)]
    exact ⟨hp, hcursor, hsize ▸ hsizes⟩

theorem placesIn_of_lt_wordCount (es : List Event) :
    let later := (h.step (.request r)).exchanges es
    placesIn h.memory.chunks.length later =
      if r.wordCount % 2 = 1 ∧ (later.find? granted).map request = some (.words 1) then
        [⟨h.memory.chunks.length, r.wordCount⟩]
      else [] := by
  intro later
  obtain ⟨-, hcursor, hsizes⟩ := hh.opens_of_lt_wordCount hs hw hc hn
  have hd := hh.step (.request r)
  have hlength : (h.step (.request r)).memory.chunks.length = h.memory.chunks.length + 1 := by
    rw [Memory.length_chunks, hsizes, List.length_append, ← Memory.length_chunks]
    rfl
  have hleft : (h.step (.request r)).arena.remaining = r.wordCount % 2 := by
    rw [memory] at hsizes
    simp [Arena.remaining, Arena.capacity_eq_getLast?, hsizes, hcursor]
  rcases Nat.mod_two_eq_zero_or_one r.wordCount with heven | hodd
  · rw [hd.placesIn_of_remaining_eq_zero hlength (hleft.trans heven), heven, if_neg (by simp)]
  · rw [hd.placesIn_of_remaining_eq_one hlength (hleft.trans hodd), hcursor]
    simp only [hodd, true_and, later]

end Oversized

end Direct

/-- A block of more words than a chunk has opens a chunk and starts it, and nothing that was given
out earlier lies there. Nothing that is given out later does if the words are of an even number. If
they are of an odd number, the chunk has one word more, and it goes to the next request that is given
words if this asks for a single word, and otherwise to none. -/
theorem oversized_block_alone_unless_odd (config : ArenaConfig) (hw : 1 ≤ config.chunkWords)
    (roots : Roots) (es : List Event) {earlier later : List Exchange} {c : Exchange}
    (hes : Heap.exchanges { arena := { config }, roots } es = earlier ++ c :: later)
    (hc : c.succeeded = true) (hn : config.chunkWords < c.request.wordCount) :
    let n := c.request.wordCount
    let k := c.before.memory.chunks.length
    c.after.memory.sizes = c.before.memory.sizes ++ [n + n % 2] ∧
    c.place? = some ⟨k, 0⟩ ∧
    placesIn k earlier = [] ∧
    placesIn k later =
      if n % 2 = 1 ∧ (later.find? granted).map request = some (.words 1) then [⟨k, n⟩] else [] := by
  obtain ⟨es₁, r, es₂, rfl, rfl, rfl⟩ := exists_of_exchanges_eq hes
  have hnew : Direct { arena := { config }, roots } := ⟨rfl, Arena.balanced_new config⟩
  have hrun := hnew.follow es₁
  have hsnug := hnew.snug_follow (Arena.snug_new config) es₁
  have hconfig : (Heap.follow { arena := { config }, roots } es₁).arena.config = config :=
    (accounted_follow hnew.plain hnew.balanced es₁).config_eq
  rw [← hconfig] at hw hn
  obtain ⟨hplace, -, hsizes⟩ := hrun.opens_of_lt_wordCount hsnug hw hc hn
  have hearlier := hnew.placesIn_of_follow_length_le es₁ (Nat.le_refl _)
  exact ⟨hsizes, hplace, hearlier, hrun.placesIn_of_lt_wordCount hsnug hw hc hn es₂⟩

/-- Nine words in chunks of eight. A request for nothing and one that fails do not count as the next
one, the first single word is placed behind the nine, and the second one is not. -/
theorem oversized_block_alone_unless_odd_nine :
    let start : Heap := { arena := { config := { chunkWords := 8, limit := some 20 } } }
    let h := start.follow [.request (.words 6)]
    let c := h.exchange (.words 9)
    let later := (h.step (.request (.words 9))).exchanges
      [.request (.words 0), .request (.words 30), .request (.words 1), .request (.words 1)]
    c.succeeded = true ∧ 8 < c.request.wordCount ∧ c.place? = some ⟨1, 0⟩ ∧
      placesIn 1 (start.exchanges [.request (.words 6)]) = [] ∧ placesIn 1 later = [⟨1, 9⟩] := by
  intro start h c later
  have hc : c.succeeded = true := by decide +kernel
  have hn : 8 < c.request.wordCount := by decide
  have hk : c.before.memory.chunks.length = 1 := by decide +kernel
  have hodd : c.request.wordCount % 2 = 1 := by decide
  have hnext : (later.find? granted).map request = some (.words 1) := by decide +kernel
  have hrun : start.exchanges [.request (.words 6), .request (.words 9), .request (.words 0),
      .request (.words 30), .request (.words 1), .request (.words 1)] =
      start.exchanges [.request (.words 6)] ++ c :: later := rfl
  obtain ⟨-, hplace, hearlier, hlater⟩ :=
    oversized_block_alone_unless_odd _ (by decide) _ _ hrun hc hn
  rw [hk] at hplace hearlier hlater
  exact ⟨hc, hn, hplace, hearlier, hlater.trans (if_pos ⟨hodd, hnext⟩)⟩

end Heap

end TaggedHeap
