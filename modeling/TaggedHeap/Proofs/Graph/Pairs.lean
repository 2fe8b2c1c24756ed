import TaggedHeap.Proofs.Graph.Collection
import TaggedHeap.Proofs.Heap.Allocations
import TaggedHeap.Proofs.Word.Tagging

/-!
# Pairs under a collector

A pair has no header, but a collection takes all that a root points to for an object and reads its
layout off the first word. Where the first component of a pair is the header of an object with two
slots, the pair is such an object and is moved as one. No other pair is safe: without a header in
front the collection stops, with one of a single slot the second component is left behind, and with
one of more slots whatever lies behind the pair is copied and wiped along with it.
-/

namespace TaggedHeap.Graph

open Heap

/-- A heap under a collector without a limit in which one root points to a pair of the two words.
The other pointers among the roots point to objects with their headers, and no two roots are the
same pointer. -/
structure PairRooted (h : Heap) (f : Contents) (i : Nat) (a b : Word) : Prop where
  moving : ∃ n, h.discipline = .moving n
  unlimited : h.arena.config.limit = none
  owns : h.arena.Owns f
  unshared : Unshared h.roots
  root : ∃ w, h.roots[i]? = some w ∧ w.kind = .pointer ∧ f w.toNat = some [a, b]
  others : ∀ {j : Nat} {w : Word}, h.roots[j]? = some w → j ≠ i → w.kind = .pointer →
    f.Movable w.toNat

/-- The pair that the root points to has the two words. -/
def PairReads (h : Heap) (i : Nat) (a b : Word) : Prop :=
  ∃ w p, h.roots.read i = .ok w ∧ Pair.ofWord w = .ok p ∧ p.first h.memory = .ok a ∧
    p.second h.memory = .ok b

/-- The heaps that allocations lead to, whether they succeed or not, as long as the chunks fit the
address space. -/
inductive Later (h : Heap) : Heap → Prop where
  | start : Later h h
  | done {h' h'' : Heap} {c : Allocation} : Later h h' → c.call.run h' = .ok () h'' → Later h h''
  | failed {h' h'' : Heap} {c : Allocation} {e : Fault} :
    Later h h' → c.call.run h' = .error e h'' → e ≠ .exhausted → Later h h''

/-- Whatever is allocated, the pair keeps its words, and no allocation stops because something has
no header. -/
def PairSurvives (h : Heap) (i : Nat) (a b : Word) : Prop :=
  ∀ h', Later h h' → PairReads h' i a b ∧
    ∀ (c : Allocation) e h'', c.call.run h' = .error e h'' → ¬ e.Headerless

/-! ## A pair that is an object -/

section Object

variable {h h' : Heap} {f g : Contents} {i : Nat} {b : Word} {hd : Header}
  (hr : PairRooted h f i hd.toWord b)
include hr

theorem PairRooted.reads : PairReads h i hd.toWord b := by
  obtain ⟨w, hi, hp, hf⟩ := hr.root
  obtain ⟨hfirst, hrest⟩ := Memory.holds_cons.1 (hr.owns.holds hf)
  refine ⟨w, ⟨w.toNat⟩, Roots.read_of_some hi, ?_, hfirst, (Memory.holds_cons.1 hrest).1⟩
  rw [Pair.ofWord, if_pos (w.isPointer_iff.2 hp)]

variable (hslots : hd.layout.slotCount = 2)
include hslots

theorem PairRooted.movable : ∀ w ∈ h.roots, w.kind = .pointer → f.Movable w.toNat := by
  intro w hw hp
  obtain ⟨j, hj⟩ := List.getElem?_of_mem hw
  by_cases hij : j = i
  · subst hij
    obtain ⟨v, hv, -, hf⟩ := hr.root
    obtain rfl := Option.some.inj (hj.symm.trans hv)
    exact ⟨hd, [b], hf, hslots⟩
  · exact hr.others hj hij hp

theorem PairRooted.collected (hc : h.Collected f h' g) : PairRooted h' g i hd.toWord b := by
  have hrooted : Rooted f h.roots := by
    intro w hw hp
    obtain ⟨hd', us, hf, -⟩ := hr.movable hslots w hw hp
    simp [hf]
  refine ⟨hc.moving, hc.config_eq ▸ hr.unlimited, hc.owns, hc.relocated.unshared_after hrooted,
    ?_, ?_⟩
  · obtain ⟨w, hi, hp, hf⟩ := hr.root
    obtain ⟨w', hi', hm⟩ := hc.relocated.moved hrooted hi
    rcases hm with ⟨hn, -⟩ | ⟨-, hp', -, -, hd', us, hold, hnew⟩
    · exact absurd hp hn
    · exact ⟨w', hi', hp', hnew.trans (hold.symm.trans hf)⟩
  · intro j w' hj hji hp'
    obtain ⟨w, hj, hm⟩ := hc.relocated.came hrooted hj
    rcases hm with ⟨hn, rfl⟩ | ⟨hp, -, -, -, hd', us, hold, hnew⟩
    · exact absurd hp' hn
    · obtain ⟨hd'', us', hf, hfit⟩ := hr.others hj hji hp
      exact ⟨hd'', us', hnew.trans (hold.symm.trans hf), hfit⟩

theorem PairRooted.ends (c : Allocation) : Ends c.call h f := by
  obtain ⟨k, hk⟩ := hr.moving
  exact ends_call hk hr.owns hr.unlimited (hr.movable hslots) hr.unshared c

theorem PairRooted.later (hl : Later h h') : ∃ g, PairRooted h' g i hd.toWord b := by
  induction hl with
  | start => exact ⟨f, hr⟩
  | done _ hrun ih =>
    obtain ⟨g, hg⟩ := ih
    obtain ⟨k, hc⟩ := (hg.ends hslots _).of_ok hrun
    exact ⟨k, hg.collected hslots hc⟩
  | failed _ hrun he ih =>
    obtain ⟨g, hg⟩ := ih
    obtain ⟨-, rfl | ⟨k, hc⟩⟩ := ((hg.ends hslots _).of_error hrun).resolve_left he
    · exact ⟨g, hg⟩
    · exact ⟨k, hg.collected hslots hc⟩

/-- A pair whose first component describes two slots survives all allocations. -/
theorem PairRooted.survives : PairSurvives h i hd.toWord b := by
  intro h' hl
  obtain ⟨g, hg⟩ := hr.later hslots hl
  refine ⟨hg.reads, ?_⟩
  intro c e h'' hrun
  rcases (hg.ends hslots c).of_error hrun with rfl | ⟨he, -⟩
  · rintro ⟨x, w, hxw⟩
    cases hxw
  · exact he

end Object

/-! ## Pairs that are no objects -/

/-- A pair does not survive a collection that misses a header. -/
theorem not_survives_of_relocateAll {h h' : Heap} {i k : Nat} {a b : Word} {e : Fault}
    (hk : h.discipline = .moving k)
    (hrun : (relocateAll h.roots).run { h with discipline := .moving (k + 1) } = .error e h')
    (he : e.Headerless) : ¬ PairSurvives h i a b := by
  intro hs
  apply (hs h .start).2 (.block (.words 1)) e h' _ he
  rw [Allocation.call, run_map, run_allocate_of_relocateAll_error hk _ hrun]

section Stuck

variable {h : Heap} {f : Contents} {w v : Word} {ws : List Word}

/-- Without a header in front a root cannot be relocated. -/
theorem relocateAll_of_read (hp : w.kind = .pointer) (hread : h.memory.read w.toNat = .ok v)
    (hv : Header.ofWord? v = none) :
    (relocateAll (w :: ws)).run h = .error (.violated (.notAHeader w.toNat v.toNat)) h := by
  have hrun : (relocate w).run h = .error (.violated (.notAHeader w.toNat v.toNat)) h :=
    run_relocate_of_error hp (run_evacuate_of_read (o := ⟨w.toNat⟩) hread hv)
  rw [relocateAll, run_bind, hrun]

variable {hd : Header} {us rest : List Word} (ho : h.arena.Owns f)
  (hx : f w.toNat = some ((hd.toWord :: us) ++ rest)) (hfit : hd.Fits us) (hp : w.kind = .pointer)
  {x : Nat} {c : Arena} (hres : h.arena.reserve (.words (us.length + 1)) = .ok (x, c))
include ho hx hfit hp hres

/-- As many words are copied as the header in front gives slots, whatever they belong to. -/
theorem run_relocate_of_prefix :
    ∃ w' h', (relocate w).run h = .ok w' h' ∧ w'.toNat = x ∧ w'.kind = .pointer ∧
      h'.arena.frontier = c.frontier ∧ h'.arena.Owns ((f.put x (hd.toWord :: us)).put w.toNat
        (List.replicate (us.length + 1) Word.zero ++ rest)) := by
  obtain ⟨h', hrun, -, hnew, -, hfrontier, hown⟩ :=
    run_evacuate_prefix_of_ok (o := ⟨w.toNat⟩) ho hx hfit hres
  have hne : x ≠ w.toNat := (Contents.ne_of_eq_none hnew hx).symm
  have hcopy : (f.put x (hd.toWord :: us)).put w.toNat
      (List.replicate (us.length + 1) Word.zero ++ rest) x = some (hd.toWord :: us) := by
    rw [Contents.put_of_ne _ _ hne, Contents.put_self]
  obtain ⟨w', hrun', hw', hp'⟩ := run_relocate_of_ok hp hrun hown hcopy
  exact ⟨w', h', hrun', hw', hp', hfrontier, hown⟩

/-- An object that begins among these words has lost its header when its turn comes. -/
theorem relocateAll_of_overlap (hv : v.kind = .pointer) {n : Nat} (hn : n ≤ us.length)
    (hvw : v.toNat = w.toNat + wordSize * n) :
    ∃ h', (relocateAll (w :: v :: ws)).run h = .error (.violated (.notAHeader v.toNat 0)) h' := by
  obtain ⟨w', h', hrun, -, -, -, hown⟩ := run_relocate_of_prefix ho hx hfit hp hres
  have hzero : (List.replicate (us.length + 1) Word.zero ++ rest)[n]? = some Word.zero := by
    rw [List.getElem?_append_left (by simp; omega), List.getElem?_replicate, if_pos (by omega)]
  have hread : h'.memory.read v.toNat = .ok Word.zero :=
    hvw ▸ hown.holds (Contents.put_self _ _ _) n Word.zero hzero
  refine ⟨h', ?_⟩
  rw [relocateAll, run_bind, hrun]
  simp only
  rw [run_bind, relocateAll_of_read hv hread rfl]
  rfl

end Stuck

/-- Of a pair whose first component describes a single slot the second one is left behind: the new
block ends after the first one, and nothing was written there. -/
theorem not_survives_of_single {h : Heap} {f : Contents} {k x : Nat} {w b : Word} {hd : Header}
    {rest : List Word} {c : Arena} (hk : h.discipline = .moving k) (ho : h.arena.Owns f)
    (hx : f w.toNat = some ([hd.toWord] ++ rest)) (hfit : hd.Fits []) (hp : w.kind = .pointer)
    (hroots : h.roots = [w]) (hres : h.arena.reserve (.words 1) = .ok (x, c)) (hb : b ≠ Word.zero) :
    ¬ PairSurvives h 0 hd.toWord b := by
  obtain ⟨w', h', hrun, rfl, hp', hfrontier, hown⟩ :=
    run_relocate_of_prefix (h := { h with discipline := .moving (k + 1) }) ho hx hfit hp hres
  have hall : (relocateAll h.roots).run { h with discipline := .moving (k + 1) } =
      .ok [w'] h' := by
    rw [congrArg relocateAll hroots, relocateAll, run_bind, hrun]
    rfl
  -- A request for nothing collects and leaves memory as the collection left it.
  obtain ⟨h'', hempty, hsame, harena⟩ :=
    run_reserve_of_isEmpty (h := { h' with roots := [w'] }) (r := .words 0) rfl 1 id
  have hcall : (Allocation.block (.words 0)).call.run h = .ok () h'' := by
    have hrun' : (allocate (.words 0)).run h = .ok _ h'' :=
      (run_allocate_of_relocateAll hk _ hall).trans hempty
    rw [Allocation.call, run_map, hrun']
  intro hs
  obtain ⟨v, p, hv, hpair, -, hsecond⟩ := (hs h'' (.done .start hcall)).1
  rw [hsame.roots] at hv
  have hv : Except.ok w' = (.ok v : Except Fault Word) := hv
  obtain rfl := Except.ok.inj hv
  rw [Pair.ofWord, if_pos (w'.isPointer_iff.2 hp')] at hpair
  obtain rfl := Except.ok.inj hpair
  obtain ⟨hg, -, -⟩ := ho.valid.reserve (r := .words 1) rfl hres
  have hend : h''.arena.frontier ≤ w'.toNat + wordSize := by
    rw [harena, hfrontier, hg.frontier_eq]
    exact Nat.le_refl _
  have hvalid : h''.arena.Valid := harena ▸ hown.valid
  exact hb (hvalid.fresh _ _ hend hsecond)

/-! ## A pair and an object right behind it -/

section Neighbours

/-- The header of a constructor with the most fields. -/
def giant : Header := ⟨5, maxFields, false, by decide, by decide⟩

/-- Where the constructor begins. -/
def behind : Nat := Memory.origin + wordSize * 2

/-- A pair and the constructor, allocated one after the other. -/
def neighbours : Heap := after (HeapObject.allocate 5 maxFields) (after Pair.allocate empty)

/-- Both of them, with components written to the pair. -/
def filledPair (a b : Word) : Heap :=
  after (writing (Pair.setSecond ⟨Memory.origin⟩ b))
    (after (writing (Pair.setFirst ⟨Memory.origin⟩ a)) neighbours)

/-- The blocks that they lie in. -/
def neighbourBlocks (a b : Word) : Contents :=
  (Contents.put (fun _ => none) behind (giant.toWord :: List.replicate maxFields Word.zero)).put
    Memory.origin [a, b]

theorem after_of_run {α : Type} {x : HeapM α} {h h' : Heap} {a : α} (hx : x.run h = .ok a h') :
    after x h = h' := by
  rw [after, hx]

/-- A request of a heap without roots is given the next block. -/
theorem owns_after_allocate {h : Heap} {f : Contents} {k n x : Nat} (hk : h.discipline = .moving k)
    (ho : h.arena.Owns f) (hroots : h.roots = [])
    (hx : given (Heap.allocate (.words (n + 1))) h = some x) :
    ∃ h', (Heap.allocate (.words (n + 1))).run h = .ok x h' ∧ h'.discipline = .moving (k + 1) ∧
      h'.roots = [] ∧ f x = none ∧
      h'.arena.Owns (f.put x (List.replicate (n + 1) Word.zero)) := by
  have hrun := run_of_given hx
  obtain ⟨g, hk', -, hrel, hnew, hown⟩ :=
    run_allocate_moving_eq_ok hk ho (by simp [hroots]) rfl hrun
  rw [hroots] at hrel
  generalize hr : (after (Heap.allocate (.words (n + 1))) h).roots = roots at hrel
  cases hrel
  exact ⟨_, hrun, hk', hr, hnew, hown⟩

theorem neighbours_owns :
    neighbours.discipline = .moving 2 ∧ neighbours.arena.Owns (neighbourBlocks .zero .zero) := by
  have hempty : empty.arena.Owns fun _ => none := (Arena.valid_new {}).owns_none
  have hfirst : given (Heap.allocate (.words 2)) empty = some Memory.origin := by decide +kernel
  obtain ⟨h₁, hrun₁, hk₁, hroots₁, -, hown₁⟩ := owns_after_allocate rfl hempty rfl hfirst
  have hpair : after Pair.allocate empty = h₁ := after_of_run (by rw [Pair.run_allocate, hrun₁])
  have hsecond : given (Heap.allocate (.words (maxFields + 1))) (after Pair.allocate empty) =
      some behind := by
    decide +kernel
  rw [hpair] at hsecond
  obtain ⟨h₂, hrun₂, hk₂, hroots₂, -, hown₂⟩ := owns_after_allocate hk₁ hown₁ hroots₁ hsecond
  have hheader : Header.ofFields? 5 maxFields = .ok giant := rfl
  obtain ⟨m, hm, hown⟩ :=
    HeapObject.run_allocate_of_ok hheader hrun₂ hown₂ (Contents.put_self _ _ _)
  have hne : Memory.origin ≠ behind := by decide
  have hneighbours : neighbours = h₂.withMemory m := by
    rw [neighbours, hpair]
    exact after_of_run hm
  rw [Contents.put_put, Contents.put_comm _ _ _ hne] at hown
  rw [hneighbours]
  exact ⟨hk₂, hown⟩

theorem neighbours_arena :
    neighbours.arena.cursor = maxSlots ∧ neighbours.memory.sizes = [4096] ∧
      neighbours.arena.config.limit = none := by
  decide +kernel

-- From here on the heap is known by its blocks. Its memory is too large to be computed with.
attribute [irreducible] neighbours

theorem filledPair_owns (a b : Word) :
    ∃ m, filledPair a b = neighbours.withMemory m ∧ m.sizes = neighbours.memory.sizes ∧
      (filledPair a b).arena.Owns (neighbourBlocks a b) := by
  obtain ⟨m₁, hm₁, hown₁⟩ := neighbours_owns.2.writeStart (Contents.put_self _ _ _) a
  obtain ⟨m₂, hm₂, hown₂⟩ :=
    hown₁.write (i := 1) (Contents.put_self _ _ _) (Nat.lt_succ_self 1) b
  have hfirst : after (writing (Pair.setFirst ⟨Memory.origin⟩ a)) neighbours =
      neighbours.withMemory m₁ := after_of_run (run_writing_of_ok hm₁)
  have hboth : filledPair a b = neighbours.withMemory m₂ := by
    rw [filledPair, hfirst]
    exact after_of_run (run_writing_of_ok (h := neighbours.withMemory m₁) hm₂)
  refine ⟨m₂, hboth, (Memory.sizes_write hm₂).trans (Memory.sizes_write hm₁), ?_⟩
  rw [Contents.put_put, neighbourBlocks, Contents.put_put] at hown₂
  rw [hboth]
  exact hown₂

/-- The root that points to the pair. -/
def pairRoot : Word := .ofNat Memory.origin

/-- The root that points to the constructor. -/
def behindRoot : Word := .ofNat behind

theorem filledPair_moving (a b : Word) : (filledPair a b).discipline = .moving 2 := by
  obtain ⟨m, heq, -, -⟩ := filledPair_owns a b
  rw [heq]
  exact neighbours_owns.1

theorem pairRoot_pointer : pairRoot.kind = .pointer ∧ pairRoot.toNat = Memory.origin := by
  decide +kernel

theorem behindRoot_pointer :
    behindRoot.kind = .pointer ∧ behindRoot.toNat = pairRoot.toNat + wordSize * 2 := by
  decide +kernel

theorem filledPair_rooted (a b : Word) {rest : Roots} (hrest : rest = [] ∨ rest = [behindRoot]) :
    PairRooted { filledPair a b with roots := pairRoot :: rest } (neighbourBlocks a b) 0 a b := by
  obtain ⟨m, heq, -, hown⟩ := filledPair_owns a b
  obtain ⟨hp, hroot⟩ := pairRoot_pointer
  have hbehind : behindRoot.toNat = behind ∧ behind ≠ Memory.origin := by decide +kernel
  have hne : pairRoot ≠ behindRoot := by decide +kernel
  have hmem : ∀ w ∈ rest, w = behindRoot := by
    rcases hrest with rfl | rfl <;> simp
  refine ⟨⟨2, filledPair_moving a b⟩, ?_, hown, ?_, ⟨pairRoot, rfl, hp, ?_⟩, ?_⟩
  · rw [heq]
    exact neighbours_arena.2.2
  · refine List.pairwise_cons.2 ⟨fun w hw _ => hmem w hw ▸ hne, ?_⟩
    rcases hrest with rfl | rfl
    · exact List.Pairwise.nil
    · exact List.pairwise_singleton _ _
  · rw [hroot]
    exact Contents.put_self _ _ _
  · intro j w hj hj0 _
    obtain ⟨j, rfl⟩ := Nat.exists_eq_succ_of_ne_zero hj0
    obtain rfl := hmem w (List.mem_of_getElem? hj)
    refine ⟨giant, List.replicate maxFields Word.zero, ?_, ?_⟩
    · rw [hbehind.1, neighbourBlocks, Contents.put_of_ne _ _ hbehind.2, Contents.put_self]
    · simp [Header.Fits, giant, Header.layout, Layout.ofHeader, Header.isClosure,
        Header.isCString, Layout.slotCount, closureUid, cstringUid, Nat.add_comm]

theorem exists_reserve (a b : Word) {n : Nat} (hn : 0 < n) (hle : n ≤ maxSlots) :
    ∃ x c, (filledPair a b).arena.reserve (.words n) = .ok (x, c) := by
  obtain ⟨m, heq, hsizes, hown⟩ := filledPair_owns a b
  obtain ⟨hcursor, hneighbours, hlimit⟩ := neighbours_arena
  rw [heq] at hown ⊢
  have hcapacity : (neighbours.withMemory m).arena.capacity = 4096 := by
    obtain ⟨c, hc, hsize⟩ := List.map_eq_singleton_iff.1 (hsizes.trans hneighbours)
    have hchunks : (neighbours.withMemory m).arena.memory.chunks = [c] := hc
    rw [Arena.capacity, hchunks]
    exact hsize
  have hcursor' : (neighbours.withMemory m).arena.cursor = maxSlots := hcursor
  apply hown.valid.exists_reserve_of_fits hlimit hn
  simp only [maxSlots, maxFields] at *
  omega

/-- The words of both, without the first one. -/
def neighbourWords (b : Word) : List Word :=
  b :: giant.toWord :: List.replicate maxFields Word.zero

/-- The two blocks taken for one. -/
theorem filledPair_owns_joined (a b : Word) :
    (filledPair a b).arena.Owns
      (Contents.put (fun _ => none) Memory.origin (a :: neighbourWords b)) := by
  obtain ⟨m, heq, hsizes, hown⟩ := filledPair_owns a b
  have hne : behind ≠ Memory.origin := by decide
  have hbehind : neighbourBlocks a b behind =
      some (giant.toWord :: List.replicate maxFields Word.zero) := by
    rw [neighbourBlocks, Contents.put_of_ne _ _ hne, Contents.put_self]
  refine hown.join (Contents.put_self _ _ _) hbehind ?_
  obtain ⟨c, hc, hsize⟩ := List.map_eq_singleton_iff.1 (hsizes.trans neighbours_arena.2.1)
  refine ⟨0, c, 0, ?_, rfl, ?_⟩
  · rw [heq]
    exact congrArg (·[0]?) hc
  · simp only [List.length_append, List.length_cons, List.length_nil, List.length_replicate, hsize,
      maxFields]
    omega

theorem not_survives_of_none {a : Word} (b : Word) (ha : Header.ofWord? a = none) :
    ¬ PairSurvives { filledPair a b with roots := [pairRoot] } 0 a b := by
  obtain ⟨m, -, -, hown⟩ := filledPair_owns a b
  obtain ⟨hp, hroot⟩ := pairRoot_pointer
  have hread : (filledPair a b).memory.read pairRoot.toNat = .ok a :=
    hroot ▸ hown.read_start (Contents.put_self _ _ _)
  exact not_survives_of_relocateAll (filledPair_moving a b) (relocateAll_of_read hp hread ha)
    ⟨_, _, rfl⟩

theorem not_survives_of_one {hd : Header} {b : Word} (hone : hd.layout.slotCount = 1)
    (hb : b ≠ Word.zero) :
    ¬ PairSurvives { filledPair hd.toWord b with roots := [pairRoot] } 0 hd.toWord b := by
  obtain ⟨m, -, -, hown⟩ := filledPair_owns hd.toWord b
  obtain ⟨hp, hroot⟩ := pairRoot_pointer
  obtain ⟨x, c, hres⟩ := exists_reserve hd.toWord b Nat.one_pos (by decide)
  have hx : neighbourBlocks hd.toWord b pairRoot.toNat = some ([hd.toWord] ++ [b]) := by
    rw [hroot]
    exact Contents.put_self _ _ _
  exact not_survives_of_single (filledPair_moving _ b) hown hx hone hp rfl hres hb

theorem not_survives_of_more {hd : Header} (b : Word) (hmore : 2 < hd.layout.slotCount) :
    ¬ PairSurvives { filledPair hd.toWord b with roots := [pairRoot, behindRoot] } 0
      hd.toWord b := by
  obtain ⟨hp, hroot⟩ := pairRoot_pointer
  obtain ⟨hq, hbehind⟩ := behindRoot_pointer
  have hle := Layout.slotCount_le hd
  obtain ⟨x, c, hres⟩ := exists_reserve hd.toWord b (by omega) hle
  obtain ⟨us, rest, hwords, hfit⟩ : ∃ us rest, us ++ rest = neighbourWords b ∧ hd.Fits us := by
    refine ⟨_, _, List.take_append_drop (hd.layout.slotCount - 1) _, ?_⟩
    simp only [Header.Fits, List.length_take, neighbourWords, List.length_cons,
      List.length_replicate, maxFields] at *
    omega
  have hx : Contents.put (fun _ => none) Memory.origin (hd.toWord :: neighbourWords b)
      pairRoot.toNat = some ((hd.toWord :: us) ++ rest) := by
    rw [hroot, Contents.put_self, ← hwords]
    rfl
  rw [hfit] at hmore hres
  obtain ⟨h', hrun⟩ : ∃ h', (relocateAll [pairRoot, behindRoot]).run
      { filledPair hd.toWord b with discipline := .moving 3, roots := [pairRoot, behindRoot] } =
        .error (.violated (.notAHeader behindRoot.toNat 0)) h' :=
    relocateAll_of_overlap (filledPair_owns_joined hd.toWord b) hx hfit hp hres hq
      (Nat.le_of_lt_succ hmore) hbehind
  exact not_survives_of_relocateAll (filledPair_moving _ b) hrun ⟨_, _, rfl⟩

/-- Unless its first component describes two slots, the pair is lost. -/
theorem not_survives {a b : Word} (hb : b ≠ Word.zero)
    (ha : ¬ ∃ hd : Header, hd.toWord = a ∧ hd.layout.slotCount = 2) :
    ∃ rest, (rest = [] ∨ rest = [behindRoot]) ∧
      ¬ PairSurvives { filledPair a b with roots := pairRoot :: rest } 0 a b := by
  cases hw : Header.ofWord? a with
  | none => exact ⟨[], .inl rfl, not_survives_of_none b hw⟩
  | some hd =>
    obtain rfl := Header.ofWord?_eq_some_iff.1 hw
    have hpos := Layout.nfields_lt_slotCount hd
    have htwo : hd.layout.slotCount ≠ 2 := fun h => ha ⟨hd, rfl, h⟩
    by_cases hone : hd.layout.slotCount = 1
    · exact ⟨[], .inl rfl, not_survives_of_one hone hb⟩
    · exact ⟨[behindRoot], .inr rfl, not_survives_of_more b (by omega)⟩

end Neighbours

/-- Exactly the pairs whose first component is the header of an object with two slots survive all
allocations, whatever else there is in the heap. -/
theorem pair_survives_iff {a b : Word} (hb : b.IsData) :
    (∀ h f i, PairRooted h f i a b → PairSurvives h i a b) ↔
      ∃ hd : Header, hd.toWord = a ∧ hd.layout.slotCount = 2 := by
  constructor
  · intro hall
    apply Classical.byContradiction
    intro ha
    have hzero : b ≠ Word.zero := by
      rintro rfl
      exact hb.ne_pointer rfl
    obtain ⟨rest, hrest, hlost⟩ := not_survives hzero ha
    exact hlost (hall _ _ _ (filledPair_rooted a b hrest))
  · rintro ⟨hd, rfl, hslots⟩ h f i hr
    exact hr.survives hslots

/-- The header of a constructor with one field. -/
def twoSlots : Header := ⟨5, 1, false, by decide, by decide⟩

/-- A pair that looks like this constructor survives beside another object. One of two numbers does
not survive everywhere. -/
theorem pair_beside_object_survives :
    PairSurvives
        { filledPair twoSlots.toWord (.unboxed 7) with roots := [pairRoot, behindRoot] } 0
        twoSlots.toWord (.unboxed 7) ∧
      ¬ ∀ h f i, PairRooted h f i (.unboxed 1) (.unboxed 7) →
        PairSurvives h i (.unboxed 1) (.unboxed 7) := by
  have hb : (Word.unboxed 7).IsData := by decide +kernel
  constructor
  · exact (pair_survives_iff hb).2 ⟨twoSlots, rfl, rfl⟩ _ _ _ (filledPair_rooted _ _ (.inr rfl))
  · intro hall
    obtain ⟨hd, heq, -⟩ := (pair_survives_iff hb).1 hall
    have hkind : (Word.unboxed 1).kind = .unboxed := by decide +kernel
    rw [← heq, hd.kind_toWord] at hkind
    cases hkind

end TaggedHeap.Graph
