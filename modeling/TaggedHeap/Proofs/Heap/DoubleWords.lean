import TaggedHeap.Proofs.Arena.History
import TaggedHeap.Proofs.Heap.Tracking

/-!
# Double words

A double word is stored out of line, in a block of its own that has no header. The arena skips a
word in front of it where its cursor is odd, so the pointer to it can be tagged. A collector does not
know such blocks: it follows no pointer to them, and copies and wipes objects alone. So a double word
stays where it is, rooted or not, as long as the pointers among the roots name objects that were
made.
-/

namespace TaggedHeap

open Heap

/-! ## One double word -/

namespace DWord

/-- The word points to a block that was handed out for the value, apart from the blocks that were
handed out earlier. -/
structure Stored (h : Heap) (blocks : List Span) (value : Nat) (w : Word) (h' : Heap) : Prop where
  kind_eq : w.kind = .dwordPointer
  aligned : w.dwordAddress % dwordSize = 0
  inChunk : h'.memory.InChunk ⟨w.dwordAddress, 2⟩
  pointer_eq : Word.dwordPointerTo w.dwordAddress = .ok w
  allocated_eq : h'.arena.allocated = h.arena.allocated +
    if h'.memory.chunks.length = h.memory.chunks.length ∧ h.arena.cursor % 2 = 1 then 3 else 2
  apart : ∀ s ∈ blocks, s.Disjoint ⟨w.dwordAddress, 2⟩
  kept : ∀ a v, ¬ Span.Covers ⟨w.dwordAddress, 2⟩ a → h.memory.read a = .ok v →
    h'.memory.read a = .ok v
  read_eq : (DWord.read w h'.memory).map DWord.toNat = .ok value

variable {d : DWord} {h h' : Heap} {w : Word}

/-- A call that succeeded was given memory first, and its halves stand there. -/
theorem request_of_run_allocate (hb : h.arena.Balanced) (hrun : d.allocate.run h = .ok w h') :
    ∃ k g m, (Heap.allocate (.dwords 1)).run h = .ok w.dwordAddress g ∧
      h.Serves k w.dwordAddress 2 g ∧ h' = g.withMemory m ∧
      g.memory.ChangedWithin ⟨w.dwordAddress, 2⟩ m ∧ m.Holds w.dwordAddress [d.lo, d.hi] ∧
      w.dwordAddress % dwordSize = 0 ∧ w.dwordAddress < wordLimit ∧
      w = Word.taggedDWord w.dwordAddress := by
  rcases run_allocate_cases hb (.dwords 1) with ⟨e, g, ha, -⟩ | ⟨x, k, g, ha, hs⟩
  · rw [run_allocate_of_error ha] at hrun
    cases hrun
  obtain ⟨us, hlen, hold⟩ := (inChunk_of_allocate (r := .dwords 1) rfl ha).exists_holds
  obtain ⟨m, hmade, hnew, hc⟩ := run_allocate_of_holds (d := d) ha hold hlen
  rw [hmade] at hrun
  obtain ⟨hw, rfl⟩ := run_lift_eq_ok_iff.1 hrun
  obtain ⟨hal, rfl⟩ := Word.dwordPointerTo_eq_ok_iff.1 hw
  have hlt : x < wordLimit := by
    obtain ⟨-, -, hstop⟩ := Memory.exists_read_iff.1 ⟨_, (Memory.holds_cons.1 hnew).1⟩
    exact Nat.lt_of_lt_of_le hstop (hs.withMemory hc).decays.balanced.stop_le
  rw [Word.dwordAddress_taggedDWord hal hlt]
  exact ⟨k, g, m, ha, hs, rfl, hc, hnew, hal, hlt, rfl⟩

theorem exists_run_allocate_of_request {g : Heap} {x : Nat} (hal : x % dwordSize = 0)
    (ha : (Heap.allocate (.dwords 1)).run h = .ok x g) : ∃ w h', d.allocate.run h = .ok w h' := by
  obtain ⟨us, hlen, hold⟩ := (inChunk_of_allocate (r := .dwords 1) rfl ha).exists_holds
  obtain ⟨m, hmade, -⟩ := run_allocate_of_holds (d := d) ha hold hlen
  rw [hmade, Word.dwordPointerTo, if_pos hal]
  exact ⟨_, _, rfl⟩

end DWord

/-- A word is skipped if the block is placed behind an odd cursor. -/
theorem Arena.allocated_of_dword {a b : Arena} {x : Nat} (h : a.reserve (.dwords 1) = .ok (x, b)) :
    b.allocated = a.allocated +
      if b.memory.chunks.length = a.memory.chunks.length ∧ a.cursor % 2 = 1 then 3 else 2 := by
  cases reserves_of_ok h with
  | nothing he => cases he
  | inChunk hr hs _ _ =>
    obtain ⟨hle, hlt, heven⟩ := Count.roundUp_eq_ok (Request.alignment_pos _) hs
    simp only [take, Request.wordCount, Request.alignment, true_and] at *
    split <;> omega
  | newChunk _ _ hc _ =>
    obtain ⟨rfl, -⟩ := addChunk_eq_ok hc
    simp [take, Memory.grow, Request.wordCount]

/-- Without a collector, a double word is stored whenever its block is handed out. -/
theorem DWord.stored_of_run_allocate {h h' : Heap} {blocks : List Span} {w : Word} {n : Nat}
    (hd : h.discipline.Still) (hh : h.arena.History blocks) (hn : n < wordLimit * wordLimit)
    (hrun : (ofNat n).allocate.run h = .ok w h') : Stored h blocks n w h' := by
  obtain ⟨-, g, m, ha, -, rfl, hc, hnew, hal, hlt, hw⟩ :=
    request_of_run_allocate hh.balanced hrun
  have hres := reserve_of_allocate hd ha
  constructor
  case kind_eq => rw [hw, Word.kind_taggedDWord hal hlt]
  case aligned => exact hal
  case inChunk =>
    exact (inChunk_of_allocate (r := .dwords 1) rfl ha).of_sizes_eq hc.sizes_eq
  case pointer_eq => rw [Word.dwordPointerTo, if_pos hal, ← hw]
  case allocated_eq =>
    have hlen : m.chunks.length = g.memory.chunks.length := by
      simpa [Memory.sizes] using congrArg List.length hc.sizes_eq
    have hallocated := Arena.allocated_of_dword hres
    change g.arena.allocated = h.arena.allocated +
      if m.chunks.length = h.memory.chunks.length ∧ h.arena.cursor % 2 = 1 then 3 else 2
    rw [hlen, hallocated]
    rfl
  case apart =>
    intro s hs
    exact .inl (Nat.le_trans (hh.stop_le_frontier s hs)
      (hh.balanced.handsOut (r := .dwords 1) rfl hres).frontier_le)
  case kept =>
    intro a v ha' hv
    exact (hc.read_eq a (Span.not_covers.1 ha')).trans (read_of_allocate hd rfl ha hv)
  case read_eq =>
    have hread : DWord.read w (g.withMemory m).memory = .ok (ofNat n) := read_of_holds hnew
    rw [hread]
    exact congrArg Except.ok (toNat_ofNat hn)

/-! ## A double word under a collector -/

namespace Tracked

/-- A double word is stored behind all objects, those that its own collection moved included. -/
theorem Placed.guards_of_dword {t : Tracked} (hp : t.Placed) {d : DWord} {w : Word} {h' : Heap}
    (hrun : d.allocate.run t.heap = .ok w h') :
    (t.step (.allocate (.dword d))).heap = h' ∧
      (t.step (.allocate (.dword d))).Guards w.dwordAddress [d.lo, d.hi] := by
  have hplaced := hp.step (.allocate (.dword d))
  have hstep : t.step (.allocate (.dword d)) = ⟨h', t.objects ++ t.moved h'.roots⟩ := by
    rw [Tracked.step, Allocation.object, run_map, hrun]
    simp
  rw [hstep] at hplaced ⊢
  obtain ⟨k, g, m, -, hs, rfl, hc, hnew, -⟩ := DWord.request_of_run_allocate hp.balanced hrun
  have hserves := hs.withMemory hc
  obtain ⟨hlow, hstop⟩ := hserves.placed.resolve_left (by decide)
  refine ⟨rfl, hplaced, hstop, fun s hmem => .inl (Nat.le_trans ?_ hlow), hnew⟩
  rcases List.mem_append.1 hmem with hmem | hmem
  · exact Nat.le_trans (hp.seats s hmem).stop_le hs.shifted.decays.frontier_le
  · exact (hp.moved_cases hs.shifted (hserves.roots ▸ hmem)).1.stop_le

end Tracked

/-- Without a collector, whatever the arena has handed out so far, a double word is stored whenever
its block is to be had, and the pointer to it leads back to the value. Under a collector the same
pointer still does after whatever else is done, as long as nothing is stored in its block and the
pointers among the roots name objects that were made: constructors, closures and strings. -/
theorem DWord.pointer_leads_back (v : BitVec 128) :
    (∀ (h : Heap) (blocks : List Span), h.discipline.Still → h.arena.History blocks →
      (∀ e g, (Heap.allocate (.dwords 1)).run h = .error e g →
        (ofNat v.toNat).allocate.run h = .error e g) ∧
      (∀ x g, (Heap.allocate (.dwords 1)).run h = .ok x g →
        ∃ w h', (ofNat v.toNat).allocate.run h = .ok w h') ∧
      ∀ w h', (ofNat v.toNat).allocate.run h = .ok w h' → Stored h blocks v.toNat w h') ∧
    ∀ (config : ArenaConfig) (collections : Nat) (roots : Roots) (earlier later : List Action),
      let t := (Tracked.start config collections roots).run earlier
      let t' := t.step (.allocate (.dword (ofNat v.toNat)))
      ∀ w h', (ofNat v.toNat).allocate.run t.heap = .ok w h' →
        t'.heap = h' ∧ (t'.PermitsAll ⟨w.dwordAddress, 2⟩ later →
          (DWord.read w (t'.run later).heap.memory).map toNat = .ok v.toNat) := by
  have hv : v.toNat < wordLimit * wordLimit := Nat.lt_of_lt_of_eq v.isLt (by decide)
  constructor
  · intro h blocks hd hh
    refine ⟨fun e g => run_allocate_of_error, fun x g ha => ?_, fun w h' => ?_⟩
    · exact exists_run_allocate_of_request
        (hh.even.reserve (r := .dwords 1) rfl (reserve_of_allocate hd ha)).2 ha
    · exact stored_of_run_allocate hd hh hv
  · intro config collections roots earlier later t t' w h' hrun
    have hplaced : t.Placed := (Tracked.placed_start config collections roots).run earlier
    obtain ⟨hheap, hguards⟩ := hplaced.guards_of_dword hrun
    refine ⟨hheap, fun hpermits => ?_⟩
    rw [read_of_holds (hguards.run hpermits).holds]
    exact congrArg Except.ok (toNat_ofNat hv)

/-- An arena that has handed out one word, so its cursor is odd. -/
def DWord.odd : Heap where
  arena := {
    config := { chunkWords := 8 }, memory := { chunks := [Array.replicate 8 Word.zero] },
    cursor := 1, allocated := 1 }

theorem DWord.odd_history : odd.arena.History [⟨Memory.origin, 1⟩] := by
  have hres : Arena.reserve { config := odd.arena.config } (.words 1) =
      .ok (Memory.origin, odd.arena) := by decide +kernel
  exact (Arena.History.new odd.arena.config).request (r := .words 1) rfl hres

/-- In that arena a word is skipped. Under a collector the value is still read behind the copy of a
rooted constructor after a string, a pair and another double word. -/
theorem DWord.pointer_leads_back_odd :
    let v : BitVec 128 := 0x0102030405060708090a0b0c0d0e0f10
    let earlier : List Action := [.allocate (.block (.words 1)), .allocate (.constructor 5 1),
      .withRoots [.ofNat (Memory.origin + wordSize), .unboxed 7]]
    let later : List Action := [.allocate (.cstring [104, 105]), .allocate .pair,
      .store (Memory.origin + 4 * wordSize) (.unboxed 9), .allocate (.dword ⟨.zero, .zero⟩)]
    let t := (Tracked.start { chunkWords := 8 } 0 []).run earlier
    let t' := t.step (.allocate (.dword (ofNat v.toNat)))
    let w := Word.taggedDWord (Memory.origin + 6 * wordSize)
    (∃ w h', (ofNat v.toNat).allocate.run odd = .ok w h' ∧ h'.arena.allocated = 4 ∧
      Stored odd [⟨Memory.origin, 1⟩] v.toNat w h') ∧
    (∃ h', (ofNat v.toNat).allocate.run t.heap = .ok w h') ∧
    (DWord.read w (t'.run later).heap.memory).map toNat = .ok v.toNat := by
  intro v earlier later t t' w
  obtain ⟨harena, hmoving⟩ := pointer_leads_back v
  constructor
  · obtain ⟨-, -, hstored⟩ := harena odd _ (by simp [odd, Discipline.Still]) odd_history
    have hgiven : Graph.given (ofNat v.toNat).allocate odd =
        some (Word.taggedDWord (Memory.origin + 2 * wordSize)) := by decide +kernel
    have hallocated : (Graph.after (ofNat v.toNat).allocate odd).arena.allocated = 4 := by
      decide +kernel
    have hrun := Graph.run_of_given hgiven
    exact ⟨_, _, hrun, hallocated, hstored _ _ hrun⟩
  · have hgiven : Graph.given (ofNat v.toNat).allocate t.heap = some w := by decide +kernel
    have hpermits : t'.PermitsAll ⟨w.dwordAddress, 2⟩ later := by decide +kernel
    have hrun := Graph.run_of_given hgiven
    exact ⟨⟨_, hrun⟩, (hmoving _ _ _ earlier later w _ hrun).2 hpermits⟩

end TaggedHeap
