import TaggedHeap.Proofs.Heap.Decay

/-!
# Objects that were made

A run of allocations, stores and changes of the roots under a collector, with the blocks of the
objects that were made. Collections move the objects that roots point to, so a new block is entered
for each; an object whose header the program overwrites with another one is dropped. As long as the
pointers among the roots name such objects, collections keep to them, and a block that is no object
keeps its words whether a root names it or not.
-/

namespace TaggedHeap

open Heap

/-! ## The block that a call makes an object of -/

theorem Heap.run_map_eq_ok {α β : Type} {g : α → β} {x : HeapM α} {h h' : Heap} {b : β}
    (hrun : (g <$> x).run h = .ok b h') : ∃ a, x.run h = .ok a h' ∧ g a = b := by
  rw [run_map] at hrun
  split at hrun
  case h_1 a k hx =>
    obtain ⟨rfl, rfl⟩ := EStateM.Result.ok.inj hrun
    exact ⟨a, hx, rfl⟩
  case h_2 => cases hrun

namespace Allocation

/-- The block at the address as that of an object, if the call makes one whose header describes it. A
constructor with the uid of closures or strings does not count. -/
def objectAt (c : Allocation) (x : Nat) : Option Span :=
  match c with
  | .constructor uid _ => if 2 ≤ uid then some ⟨x, c.request.wordCount⟩ else none
  | .closure .. | .cstring _ => some ⟨x, c.request.wordCount⟩
  | _ => none

/-- The call, with the block of the object that it makes for an answer. -/
def object : Allocation → HeapM (Option Span)
  | .block r => (fun _ => none) <$> Heap.allocate r
  | .constructor uid nfields =>
    (fun o => objectAt (.constructor uid nfields) o.address) <$> HeapObject.allocate uid nfields
  | .closure code descriptor captures =>
    (fun c => objectAt (.closure code descriptor captures) c.object.address) <$>
      Closure.allocate code descriptor captures
  | .cstring bytes =>
    (fun s => objectAt (.cstring bytes) s.object.address) <$> CString.allocate bytes
  | .pair => (fun _ => none) <$> Pair.allocate
  | .dword d => (fun _ => none) <$> d.allocate

theorem ending_object (c : Allocation) (h : Heap) : c.Ending h c.objectAt (c.object.run h) := by
  cases c with
  | block r => exact (ending_block r h).map fun _ => none
  | constructor uid nfields =>
    exact (ending_constructor uid nfields h).map fun o =>
      objectAt (.constructor uid nfields) o.address
  | closure code descriptor captures =>
    exact (ending_closure code descriptor captures h).map fun c =>
      objectAt (.closure code descriptor captures) c.object.address
  | cstring bytes =>
    exact (ending_cstring bytes h).map fun s => objectAt (.cstring bytes) s.object.address
  | pair => exact (ending_pair h).map fun _ => none
  | dword d => exact (ending_dword d h).map fun _ => none

theorem objectAt_eq_some {c : Allocation} {x : Nat} {s : Span} (hs : c.objectAt x = some s) :
    s = ⟨x, c.request.wordCount⟩ ∧ 0 < s.length := by
  cases c with
  | constructor uid nfields =>
    rw [objectAt] at hs
    split at hs
    case isFalse => cases hs
    case isTrue =>
      cases hs
      exact ⟨rfl, Nat.succ_pos _⟩
  | closure | cstring =>
    cases hs
    exact ⟨rfl, Nat.succ_pos _⟩
  | block | pair | dword => cases hs

/-- The header of an object that was made gives the words that were requested. -/
theorem slotCount_of_object {c : Allocation} {h h' : Heap} {s : Span}
    (hrun : c.object.run h = .ok (some s) h') :
    (HeapObject.mk s.start).slotCount h'.memory = .ok s.length := by
  cases c with
  | block | pair | dword =>
    obtain ⟨a, -, hs⟩ := run_map_eq_ok hrun
    cases hs
  | constructor uid nfields =>
    obtain ⟨o, hmade, hs⟩ := run_map_eq_ok hrun
    obtain ⟨-, hd, hh, hu, hn⟩ := HeapObject.requested_of_allocate hmade
    rw [objectAt] at hs
    split at hs
    case isFalse => cases hs
    case isTrue huid =>
      obtain rfl := Option.some.inj hs
      have hne : hd.uid ≠ closureUid := by
        simp only [hu, closureUid]
        omega
      rw [HeapObject.slotCount_of_header hh, Header.slotCount_layout, if_neg hne, hn]
      rfl
  | closure code descriptor captures =>
    obtain ⟨k, hmade, hs⟩ := run_map_eq_ok hrun
    obtain ⟨-, hd, hh, hu, hn⟩ := Closure.requested_of_allocate hmade
    obtain rfl := Option.some.inj hs
    rw [HeapObject.slotCount_of_header hh, Header.slotCount_layout, if_pos hu, hn]
    rfl
  | cstring bytes =>
    obtain ⟨k, hmade, hs⟩ := run_map_eq_ok hrun
    obtain ⟨-, hd, hh, hu, hn⟩ := CString.requested_of_allocate hmade
    obtain rfl := Option.some.inj hs
    have hne : hd.uid ≠ closureUid := by
      rw [hu]
      decide
    rw [HeapObject.slotCount_of_header hh, Header.slotCount_layout, if_neg hne, hn,
      CString.wordsFor_succ]
    rfl

end Allocation

/-- What is done to a heap: an allocation, a word stored at an address, or a change of the roots. -/
inductive Action where
  | allocate (c : Allocation)
  | store (address : Nat) (w : Word)
  | withRoots (roots : Roots)

/-- The word points to the object. -/
def Names (w : Word) (s : Span) : Prop := w.kind = .pointer ∧ w.toNat = s.start

instance (w : Word) (s : Span) : Decidable (Names w s) := inferInstanceAs (Decidable (_ ∧ _))

/-- Stored at the address, the word leaves the object a header of as many slots. -/
def Respects (address : Nat) (w : Word) (s : Span) : Prop :=
  address = s.start → (Header.ofWord? w).map (·.layout.slotCount) = some s.length

instance (address : Nat) (w : Word) (s : Span) : Decidable (Respects address w s) :=
  inferInstanceAs (Decidable (_ → _))

namespace Heap

variable {h : Heap} {address : Nat} {w : Word}

theorem step_store_cases (h : Heap) (address : Nat) (w : Word) :
    h.step (.store address w) = h ∨ ∃ m, h.memory.write address w = .ok m ∧
      h.step (.store address w) = h.withMemory m := by
  rw [step]
  cases hm : h.memory.write address w with
  | error e => exact .inl rfl
  | ok m => exact .inr ⟨m, rfl, rfl⟩

theorem balanced_store (hb : h.arena.Balanced) (address : Nat) (w : Word) :
    (h.step (.store address w)).arena.Balanced := by
  rcases step_store_cases h address w with he | ⟨m, hm, he⟩
  · rwa [he]
  · rw [he]
    exact hb.of_sizes_eq (Memory.sizes_write hm)

theorem frontier_store (h : Heap) (address : Nat) (w : Word) :
    (h.step (.store address w)).arena.frontier = h.arena.frontier := by
  rcases step_store_cases h address w with he | ⟨m, hm, he⟩
  · rw [he]
  · rw [he]
    exact Arena.frontier_congr (Memory.sizes_write hm)

theorem read_store {a : Nat} (ha : a ≠ address) :
    (h.step (.store address w)).memory.read a = h.memory.read a := by
  rcases step_store_cases h address w with he | ⟨m, hm, he⟩
  · rw [he]
  · rw [he]
    exact (Memory.read_write hm a).trans (if_neg ha)

/-- The header of an object stays, or is replaced by one of as many slots. -/
theorem Seats.store {s : Span} (hs : h.Seats s) (hr : Respects address w s) :
    (h.step (.store address w)).Seats s := by
  refine ⟨hs.pos, frontier_store h address w ▸ hs.stop_le, fun n hn => ?_⟩
  by_cases he : address = s.start
  case neg =>
    have hread := read_store (h := h) (w := w) (Ne.symm he)
    exact hs.length_eq n ((HeapObject.slotCount_congr (o := ⟨s.start⟩) hread).symm.trans hn)
  case pos =>
    rcases step_store_cases h address w with hsame | ⟨m, hm, hnew⟩
    · rw [hsame] at hn
      exact hs.length_eq n hn
    · rw [hnew] at hn
      obtain ⟨hd, hw, hlen⟩ := Option.map_eq_some_iff.1 (hr he)
      have hread : m.read s.start = .ok w := by rw [Memory.read_write hm, if_pos he.symm]
      have hslots := HeapObject.slotCount_of_header
        (HeapObject.header_of_read (o := ⟨s.start⟩) hread hw)
      rw [← hlen]
      exact Except.ok.inj (hn.symm.trans hslots)

end Heap

/-- A heap with the blocks of the objects that were made in it: those that they were made in, and
those that collections moved them to. What had its header overwritten is no object any more. -/
structure Tracked where
  heap : Heap
  objects : List Span := []

namespace Tracked

/-- Where the objects are that the roots named before they became the other words. -/
def moved (t : Tracked) (roots : Roots) : List Span :=
  (t.heap.roots.zip roots).flatMap fun r =>
    (t.objects.filter (Names r.1 ·)).map fun s => ⟨r.2.toNat, s.length⟩

/-- The heap after the action, whether it succeeds or not, with the objects that there are then. -/
def step (t : Tracked) : Action → Tracked
  | .allocate c =>
    match c.object.run t.heap with
    | .ok made h => ⟨h, t.objects ++ t.moved h.roots ++ made.toList⟩
    | .error _ h => ⟨h, t.objects ++ t.moved h.roots⟩
  | .store address w =>
    ⟨t.heap.step (.store address w), t.objects.filter (Respects address w ·)⟩
  | .withRoots roots => ⟨t.heap.step (.withRoots roots), t.objects⟩

def run (t : Tracked) (actions : List Action) : Tracked := actions.foldl step t

/-- A new heap under a collector, in which nothing was made. -/
def start (config : ArenaConfig) (collections : Nat) (roots : Roots) : Tracked where
  heap := { arena := { config }, discipline := .moving collections, roots }

/-- The action stores nothing in the block, and if it allocates, then all pointers among the roots
name objects that were made. -/
def Permits (t : Tracked) (block : Span) : Action → Prop
  | .allocate _ => ∀ w ∈ t.heap.roots, w.kind = .pointer → ∃ s ∈ t.objects, Names w s
  | .store address _ => ¬ block.Covers address
  | .withRoots _ => True

/-- Each of the actions is permitted when its turn comes. -/
def PermitsAll (t : Tracked) (block : Span) : List Action → Prop
  | [] => True
  | a :: actions => t.Permits block a ∧ (t.step a).PermitsAll block actions

/-- What has a header among the objects has as many words as it was made with. -/
structure Placed (t : Tracked) : Prop where
  balanced : t.heap.arena.Balanced
  seats : ∀ s ∈ t.objects, t.heap.Seats s

/-- The words stand in a block that was handed out, and no object has a part of it. -/
structure Guards (t : Tracked) (x : Nat) (ws : List Word) : Prop where
  placed : t.Placed
  stop_le : Span.stop ⟨x, ws.length⟩ ≤ t.heap.arena.frontier
  apart : ∀ s ∈ t.objects, s.Disjoint ⟨x, ws.length⟩
  holds : t.heap.memory.Holds x ws

instance (t : Tracked) (block : Span) : DecidablePred (t.Permits block)
  | .allocate _ => inferInstanceAs (Decidable (∀ w ∈ t.heap.roots, w.kind = .pointer →
    ∃ s ∈ t.objects, Names w s))
  | .store _ _ => inferInstanceAs (Decidable ¬ (_ ∧ _))
  | .withRoots _ => inferInstanceAs (Decidable True)

instance decidablePermitsAll (block : Span) :
    (actions : List Action) → (t : Tracked) → Decidable (t.PermitsAll block actions)
  | [], _ => inferInstanceAs (Decidable True)
  | a :: actions, t =>
    have := decidablePermitsAll block actions (t.step a)
    inferInstanceAs (Decidable (_ ∧ _))

theorem placed_start (config : ArenaConfig) (collections : Nat) (roots : Roots) :
    (start config collections roots).Placed :=
  ⟨Arena.balanced_new config, by simp [start]⟩

/-! ## One action -/

variable {t : Tracked}

/-- An object that a root names was moved behind the frontier, or stays where it is. -/
theorem Placed.moved_cases (hp : t.Placed) {k : Heap} (hk : t.heap.Shifted k) {s : Span}
    (hs : s ∈ t.moved k.roots) :
    k.Seats s ∧ (s ∈ t.objects ∨ t.heap.arena.frontier ≤ s.start) := by
  obtain ⟨⟨w, w'⟩, hroot, hs⟩ := List.mem_flatMap.1 hs
  obtain ⟨o, hnamed, rfl⟩ := List.mem_map.1 hs
  obtain ⟨ho, hnames⟩ := List.mem_filter.1 hnamed
  obtain ⟨hw, hstart⟩ : Names w o := of_decide_eq_true hnames
  have hseat := hp.seats o ho
  rcases hk.roots with he | hlands
  · -- A collection that stops has not changed the roots.
    rw [he] at hroot
    obtain rfl : w = w' := (List.forall₂_iff_zip.1 (List.forall₂_refl t.heap.roots)).2 hroot
    have hspan : Span.mk w.toNat o.length = o := by rw [hstart]
    rw [hspan]
    exact ⟨hseat.of_decays hp.balanced hk.decays, .inl ho⟩
  · obtain ⟨n, hn, hlow, hs⟩ :=
      (List.forall₂_iff_zip.1 hlands).2 hroot hw (hstart ▸ hseat.start_lt)
    rw [hstart] at hn
    rw [← hseat.length_eq n hn]
    exact ⟨hs, .inr hlow⟩

/-- An allocation leaves a heap that has decayed, with new objects behind the frontier there was. -/
theorem Placed.allocate_cases (hp : t.Placed) (c : Allocation) :
    t.heap.Shifted (t.step (.allocate c)).heap ∧
      ∀ s ∈ (t.step (.allocate c)).objects, (t.step (.allocate c)).heap.Seats s ∧
        (s ∈ t.objects ∨ t.heap.arena.frontier ≤ s.start) := by
  rw [step]
  rcases (c.ending_object t.heap).cases_of_balanced hp.balanced with
    ⟨e, h', hrun, hs⟩ | ⟨x, k, h', hrun, hs⟩
  · rw [hrun]
    refine ⟨hs, fun s hmem => ?_⟩
    rcases List.mem_append.1 hmem with hmem | hmem
    · exact ⟨(hp.seats s hmem).of_decays hp.balanced hs.decays, .inl hmem⟩
    · exact hp.moved_cases hs hmem
  · rw [hrun]
    have hshifted := hs.shifted_after
    refine ⟨hshifted, fun s hmem => ?_⟩
    rcases List.mem_append.1 hmem with hmem | hmem
    · rcases List.mem_append.1 hmem with hmem | hmem
      · exact ⟨(hp.seats s hmem).of_decays hp.balanced hshifted.decays, .inl hmem⟩
      · exact hp.moved_cases hshifted hmem
    · -- The new object has its header, and lies behind the copies.
      have hobject := Option.mem_toList.1 hmem
      rw [hobject] at hrun
      have hslots := Allocation.slotCount_of_object hrun
      obtain ⟨rfl, hpos⟩ := Allocation.objectAt_eq_some hobject
      obtain ⟨hlow, hstop⟩ := hs.placed.resolve_left (Nat.ne_of_gt hpos)
      refine ⟨⟨hpos, hstop, fun n hn => ?_⟩, .inr ?_⟩
      · exact Except.ok.inj (hn.symm.trans hslots)
      · exact Nat.le_trans hs.shifted.decays.frontier_le hlow

theorem Placed.step (hp : t.Placed) (a : Action) : (t.step a).Placed := by
  cases a with
  | allocate c =>
    obtain ⟨hs, hobjects⟩ := hp.allocate_cases c
    exact ⟨hs.decays.balanced, fun s hmem => (hobjects s hmem).1⟩
  | store address w =>
    refine ⟨balanced_store hp.balanced address w, fun s hmem => ?_⟩
    obtain ⟨hmem, hr⟩ := List.mem_filter.1 hmem
    exact (hp.seats s hmem).store (of_decide_eq_true hr)
  | withRoots roots =>
    refine ⟨hp.balanced, fun s hmem => ?_⟩
    exact (hp.seats s hmem).of_decays hp.balanced
      (.of_arena_eq (p := fun _ => False) hp.balanced rfl)

/-- Roots that name objects do not reach a block that is apart from them. -/
theorem Guards.not_reaches {x : Nat} {ws : List Word} (hg : t.Guards x ws) {c : Allocation}
    (hc : t.Permits ⟨x, ws.length⟩ (.allocate c)) {a : Nat} (ha : Span.Covers ⟨x, ws.length⟩ a) :
    ¬ t.heap.memory.Reaches t.heap.roots a := by
  rintro ⟨w, hw, hp, hcovers⟩
  obtain ⟨n, hn, hcovers⟩ := HeapObject.exists_slotCount_of_covers hcovers
  obtain ⟨s, hs, -, hstart⟩ := hc w hw hp
  simp only [hstart] at hn hcovers
  rw [(hg.placed.seats s hs).length_eq n hn] at hcovers
  exact (hg.apart s hs).not_covers hcovers ha

theorem Guards.step {x : Nat} {ws : List Word} (hg : t.Guards x ws) {a : Action}
    (ha : t.Permits ⟨x, ws.length⟩ a) : (t.step a).Guards x ws := by
  have hplaced := hg.placed.step a
  cases a with
  | allocate c =>
    obtain ⟨hs, hobjects⟩ := hg.placed.allocate_cases c
    refine ⟨hplaced, Nat.le_trans hg.stop_le hs.decays.frontier_le, fun s hmem => ?_, ?_⟩
    · rcases (hobjects s hmem).2 with hold | hnew
      · exact hg.apart s hold
      · exact .inr (Nat.le_trans hg.stop_le hnew)
    · refine hg.holds.of_read fun b w hb hw => ?_
      rcases hs.decays.front b w (Nat.lt_of_lt_of_le hb.2 hg.stop_le) hw with hr | ⟨hreach, -⟩
      · exact hr
      · exact absurd hreach (hg.not_reaches ha hb)
  | store address w =>
    refine ⟨hplaced, ?_, fun s hmem => hg.apart s (List.mem_of_mem_filter hmem), ?_⟩
    · exact Nat.le_trans hg.stop_le (Nat.le_of_eq (frontier_store t.heap address w).symm)
    · refine hg.holds.of_read fun b v hb hv => ?_
      have hne : b ≠ address := fun he => ha (he ▸ hb)
      exact (read_store hne).trans hv
  | withRoots roots => exact ⟨hplaced, hg.stop_le, hg.apart, hg.holds⟩

/-! ## A run of actions -/

theorem Placed.run (hp : t.Placed) (actions : List Action) : (t.run actions).Placed := by
  induction actions generalizing t with
  | nil => exact hp
  | cons a actions ih => exact ih (hp.step a)

theorem Guards.run {x : Nat} {ws : List Word} (hg : t.Guards x ws) {actions : List Action}
    (ha : t.PermitsAll ⟨x, ws.length⟩ actions) : (t.run actions).Guards x ws := by
  induction actions generalizing t with
  | nil => exact hg
  | cons a actions ih => exact ih (hg.step ha.1) ha.2

end Tracked

end TaggedHeap
